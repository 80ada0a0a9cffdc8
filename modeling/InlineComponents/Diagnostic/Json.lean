import InlineComponents.Diagnostic.Basic
import InlineComponents.Json.Shape

namespace InlineComponents

def Severity.name : Severity → String
  | .warning => "warning"
  | .error => "error"

def Severity.ofJson : Json → Shaped Severity :=
  Json.asChoice ("warning", .warning) ("error", .error)

def Position.toJson (p : Position) : Json :=
  .object [("line", .ofNat p.line.toNat), ("column", .ofNat p.column.toNat),
    ("character", .ofNat p.character.toNat)]

/-- The value of a field read as soon as it is met; keys of no meaning are passed over. -/
def readAll {α : Type} (read : α → String × Json → Shaped α) (start : α) (fields : Fields) :
    Shaped α :=
  fields.foldlM read start

def required {α : Type} (name : String) (value : Option α) : Shaped α :=
  match value with
  | some a => .ok a
  | none => .error (.missingField name)

/-- The fields of a position that have been read. -/
structure Position.Draft where
  line : Option UInt32 := none
  column : Option UInt32 := none
  character : Option UInt32 := none

def Position.Draft.read (p : Draft) (field : String × Json) : Shaped Draft :=
  match field.1 with
  | "line" => do pure { p with line := some (← field.2.asUInt32) }
  | "column" => do pure { p with column := some (← field.2.asUInt32) }
  | "character" => do pure { p with character := some (← field.2.asUInt32) }
  | _ => .ok p

/-- The offset may be missing and is zero then. -/
def Position.Draft.finish (p : Draft) : Shaped Position := do
  pure ⟨← required "line" p.line, ← required "column" p.column, p.character.getD 0⟩

def Position.tooShort (length : Nat) : ShapeFault :=
  .wrongLength length "struct Position with 3 elements"

/-- A position is an object, or the list of its three numbers, of which the last may be missing. -/
def Position.ofJson (json : Json) : Shaped Position :=
  match json with
  | .object fields => do (← readAll Draft.read {} fields).finish
  | .array items =>
    match items with
    | [] => .error (tooShort 0)
    | [line] => do
      let _ ← line.asUInt32
      throw (tooShort 1)
    | [line, column] => do pure ⟨← line.asUInt32, ← column.asUInt32, 0⟩
    | line :: column :: character :: rest => do
      let position : Position := ⟨← line.asUInt32, ← column.asUInt32, ← character.asUInt32⟩
      allRead items rest
      pure position
  | json => .error (.wrongType json.found "struct Position")

namespace Diagnostic

/-- Absent parts are left out. -/
def toJson (d : Diagnostic) : Json :=
  let optional (name : String) (value : Option Json) : Fields :=
    value.elim [] fun json => [(name, json)]
  .object ([("severity", .string d.severity.name), ("code", .string d.code),
      ("message", .string d.message)] ++
    optional "filename" (d.filename.map .string) ++
    optional "start" (d.start.map Position.toJson) ++
    optional "end" (d.stop.map Position.toJson) ++
    optional "frame" (d.frame.map .string))

/-- The fields of a diagnostic that have been read. -/
structure Draft where
  severity : Option Severity := none
  code : Option String := none
  message : Option String := none
  filename : Option String := none
  start : Option Position := none
  stop : Option Position := none
  frame : Option String := none

def Draft.read (d : Draft) (field : String × Json) : Shaped Draft :=
  match field.1 with
  | "severity" => do pure { d with severity := some (← Severity.ofJson field.2) }
  | "code" => do pure { d with code := some (← field.2.asString) }
  | "message" => do pure { d with message := some (← field.2.asString) }
  | "filename" => do pure { d with filename := ← Json.asOptional Json.asString field.2 }
  | "start" => do pure { d with start := ← Json.asOptional Position.ofJson field.2 }
  | "end" => do pure { d with stop := ← Json.asOptional Position.ofJson field.2 }
  | "frame" => do pure { d with frame := ← Json.asOptional Json.asString field.2 }
  | _ => .ok d

def Draft.finish (d : Draft) : Shaped Diagnostic := do
  pure ⟨← required "severity" d.severity, ← required "code" d.code,
    ← required "message" d.message, d.filename, d.start, d.stop, d.frame⟩

/-- The field names in the order of a diagnostic given as a list. -/
def fieldNames : List String :=
  ["severity", "code", "message", "filename", "start", "end", "frame"]

/-- A list that ends before the message is too short; what comes after it may be missing. -/
def ofItems (items : List Json) : Shaped Diagnostic := do
  let draft ← readAll Draft.read {} (fieldNames.zip items)
  if items.length < 3 then
    throw (.wrongLength items.length "struct Diagnostic with 7 elements")
  allRead items (items.drop fieldNames.length)
  draft.finish

/-- A diagnostic is an object, or the list of its fields. -/
def ofJson (json : Json) : Shaped Diagnostic :=
  match json with
  | .object fields => do (← readAll Draft.read {} fields).finish
  | .array items => ofItems items
  | json => .error (.wrongType json.found "struct Diagnostic")

end Diagnostic

end InlineComponents
