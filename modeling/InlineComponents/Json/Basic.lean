import InlineComponents.Json.Number

namespace InlineComponents

/-- A JSON value; the fields of an object keep the order in which they were first given. -/
inductive Json where
  | null
  | bool (value : Bool)
  | number (value : Number)
  | string (text : String)
  | array (items : List Json)
  | object (fields : List (String × Json))
  deriving Repr, Inhabited

namespace Json

-- No instance can be derived where a type is nested in lists of itself.
mutual

def decEq : (a b : Json) → Decidable (a = b)
  | .null, .null => isTrue rfl
  | .bool a, .bool b => decidable_of_iff (a = b) (by simp)
  | .number a, .number b => decidable_of_iff (a = b) (by simp)
  | .string a, .string b => decidable_of_iff (a = b) (by simp)
  | .array a, .array b =>
    haveI := decEqItems a b
    decidable_of_iff (a = b) (by simp)
  | .object a, .object b =>
    haveI := decEqFields a b
    decidable_of_iff (a = b) (by simp)
  | .null, .bool _ | .null, .number _ | .null, .string _ | .null, .array _ | .null, .object _
  | .bool _, .null | .bool _, .number _ | .bool _, .string _ | .bool _, .array _
  | .bool _, .object _ | .number _, .null | .number _, .bool _ | .number _, .string _
  | .number _, .array _ | .number _, .object _ | .string _, .null | .string _, .bool _
  | .string _, .number _ | .string _, .array _ | .string _, .object _ | .array _, .null
  | .array _, .bool _ | .array _, .number _ | .array _, .string _ | .array _, .object _
  | .object _, .null | .object _, .bool _ | .object _, .number _ | .object _, .string _
  | .object _, .array _ => isFalse nofun

def decEqItems : (a b : List Json) → Decidable (a = b)
  | [], [] => isTrue rfl
  | x :: a, y :: b =>
    haveI := decEq x y
    haveI := decEqItems a b
    decidable_of_iff (x = y ∧ a = b) (by simp)
  | [], _ :: _ | _ :: _, [] => isFalse nofun

def decEqFields : (a b : List (String × Json)) → Decidable (a = b)
  | [], [] => isTrue rfl
  | (key, x) :: a, (key', y) :: b =>
    haveI := decEq x y
    haveI := decEqFields a b
    decidable_of_iff (key = key' ∧ x = y ∧ a = b) (by simp [and_assoc])
  | [], _ :: _ | _ :: _, [] => isFalse nofun

end

instance : DecidableEq Json := decEq

end Json

abbrev Fields : Type := List (String × Json)

/-- The value of a key. -/
def Fields.find? (fields : Fields) (key : String) : Option Json :=
  (List.find? (fun field => field.1 = key) fields).map Prod.snd

/-- A key given again takes the new value and keeps its place. -/
def Fields.put : Fields → String → Json → Fields
  | [], key, value => [(key, value)]
  | field :: fields, key, value =>
    if field.1 = key then (key, value) :: fields else field :: Fields.put fields key value

def Json.ofNat (n : Nat) : Json :=
  .number (.int n)

def Json.strings (texts : List String) : Json :=
  .array (texts.map .string)

end InlineComponents
