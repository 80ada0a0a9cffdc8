import InlineComponents.Json.Fault

namespace InlineComponents

abbrev Shaped (α : Type) : Type := Except ShapeFault α

def Json.asBool : Json → Shaped Bool
  | .bool value => .ok value
  | json => .error (.wrongType json.found "a boolean")

def Json.asString : Json → Shaped String
  | .string text => .ok text
  | json => .error (.wrongType json.found "a string")

def Json.asList {α : Type} (as : Json → Shaped α) : Json → Shaped (List α)
  | .array items => items.mapM as
  | json => .error (.wrongType json.found "a sequence")

def Json.asStrings : Json → Shaped (List String) :=
  Json.asList Json.asString

def Json.asFields : Json → Shaped Fields
  | .object fields => .ok fields
  | json => .error (.wrongType json.found "a map")

/-- An integer of 32 bits without sign. -/
def Json.asUInt32 : Json → Shaped UInt32
  | .number (.int value) =>
    if 0 ≤ value && value < UInt32.size then .ok (UInt32.ofNat value.toNat)
    else .error (.wrongValue (.number (.int value)) "u32")
  | json => .error (.wrongType json.found "u32")

/-- A value that may be given as `null` instead. -/
def Json.asOptional {α : Type} (as : Json → Shaped α) : Json → Shaped (Option α)
  | .null => .ok none
  | json => (as json).map some

/-- One of two names, as a text or as the only key of an object that holds `null`. -/
def Json.asChoice {α : Type} (first second : String × α) (json : Json) : Shaped α :=
  match json with
  | .string name => choose name
  | .object [(name, value)] => do
    let choice ← choose name
    match value with
    | .null => pure choice
    | value => throw (.wrongType value.found "unit")
  | .object _ => .error (.wrongValue .map "map with a single key")
  | json => .error (.wrongType json.found "string or map")
where
  choose (name : String) : Shaped α :=
    if name = first.1 then .ok first.2
    else if name = second.1 then .ok second.2
    else .error (.unknownVariant name first.1 second.1)

/-- Every item read, and none left over. -/
def allRead (items rest : List Json) : Shaped Unit :=
  if rest = [] then .ok () else .error (.wrongLength items.length "fewer elements in array")

end InlineComponents
