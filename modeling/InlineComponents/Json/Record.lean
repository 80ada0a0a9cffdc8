import InlineComponents.Json.Skip

namespace InlineComponents

/-- The fields of an object after its opening brace, each handled after its key is read. No
object has more fields than characters. -/
def readRecord {σ : Type}
    (readField : σ → String → List Char → Except JsonFault (σ × List Char)) (state : σ)
    (s : List Char) : Except JsonFault (σ × List Char) :=
  go state true s s
where
  go (state : σ) (first : Bool) (s : List Char) : List Char → Except JsonFault (σ × List Char)
    | [] => .error .endInObject
    | _ :: room => do
      match ← nextKey first s with
      | none => pure (state, (dropJsonBlanks s).drop 1)
      | some s =>
        let (key, rest) ← readString s
        let (state, rest) ← readField state key rest
        go state false rest room

/-- A field that is already given is not given again. -/
def once (given : Bool) (name : String) : Except JsonFault Unit :=
  if given then .error (.shape (.duplicateField name)) else .ok ()

/-- The value of a field of a record, which is itself one level. -/
def readInner : List Char → Except JsonFault (Json × List Char) :=
  readValue (maxDepth - 1)

end InlineComponents
