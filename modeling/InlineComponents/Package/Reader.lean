import InlineComponents.Json.Record

namespace InlineComponents

/-- The fields of a `package.json` that matter here. -/
structure Manifest where
  name : Option String
  svelte : Option Json
  exports : Option Json

namespace Manifest

def expected : String := "struct RawPackageJson"

/-- The fault of a text that begins a value of another type. -/
def otherType (expected : String) (c : Char) (cs : List Char) : JsonFault :=
  let wrong (found : Found) : JsonFault := .shape (.wrongType found expected)
  let orFault {α : Type} (read : Except JsonFault α) (found : α → Found) : JsonFault :=
    match read with
    | .ok a => wrong (found a)
    | .error fault => fault
  match startOf c with
  | .word letters value => orFault (readWord letters cs) fun _ => value.found
  | .numeral true => orFault (readNumber true cs) fun read => .number read.1
  | .numeral false => orFault (readNumber false (c :: cs)) fun read => .number read.1
  | .string => orFault (readString cs) fun read => .string read.1
  | .list => wrong .sequence
  | .object => wrong .map
  | .nothing => .noValue

/-- A value or `null`. -/
def readOptional {α : Type} (read : List Char → Except JsonFault (α × List Char))
    (s : List Char) : Except JsonFault (Option α × List Char) := do
  match dropJsonBlanks s with
  | 'n' :: cs => pure (none, ← readWord ['u', 'l', 'l'] cs)
  | s =>
    let (value, rest) ← read s
    pure (some value, rest)

def readText (s : List Char) : Except JsonFault (String × List Char) :=
  match dropJsonBlanks s with
  | [] => .error .endInValue
  | '"' :: cs => readString cs
  | c :: cs => .error (otherType "a string" c cs)

/-- The fields read so far; a field given as `null` was read too. -/
structure Partial where
  name : Option (Option String) := none
  svelte : Option (Option Json) := none
  exports : Option (Option Json) := none

def Partial.finish (p : Partial) : Manifest :=
  ⟨p.name.join, p.svelte.join, p.exports.join⟩

/-- One field after its key; the value of a key that does not matter is skipped. -/
def readField (p : Partial) (key : String) (s : List Char) :
    Except JsonFault (Partial × List Char) := do
  if key = "name" then
    once p.name.isSome key
    let (value, rest) ← readOptional readText (← readColon s)
    pure ({ p with name := some value }, rest)
  else if key = "svelte" then
    once p.svelte.isSome key
    let (value, rest) ← readOptional readInner (← readColon s)
    pure ({ p with svelte := some value }, rest)
  else if key = "exports" then
    once p.exports.isSome key
    let (value, rest) ← readOptional readInner (← readColon s)
    pure ({ p with exports := some value }, rest)
  else
    pure (p, ← skipValue (← readColon s))

/-- One of the fields of a manifest given as a list in the order name, svelte, exports. -/
def readItem {α : Type} (read : List Char → Except JsonFault (α × List Char)) (index : Nat)
    (s : List Char) : Except JsonFault (Option α × List Char) := do
  match ← nextItem (index = 0) s with
  | none => throw (.shape (.wrongLength index (expected ++ " with 3 elements")))
  | some s => readOptional read s

/-- The end of a list that has all its fields. -/
def readListEnd (s : List Char) : Except JsonFault (List Char) :=
  match dropJsonBlanks s with
  | [] => .error .endInList
  | ']' :: rest => .ok rest
  | ',' :: rest =>
    match dropJsonBlanks rest with
    | ']' :: _ => .error .trailingComma
    | _ => .error .trailingCharacters
  | _ => .error .trailingCharacters

/-- The manifest that a text is: read from left to right, so that the first fault counts, whether
of form or of type. -/
def read (text : String) : Except JsonFault Manifest := do
  match dropJsonBlanks text.toList with
  | [] => throw .endInValue
  | '{' :: cs =>
    let (fields, rest) ← readRecord readField {} cs
    readEnd rest
    pure fields.finish
  | '[' :: cs =>
    let (name, rest) ← readItem readText 0 cs
    let (svelte, rest) ← readItem readInner 1 rest
    let (exports, rest) ← readItem readInner 2 rest
    readEnd (← readListEnd rest)
    pure ⟨name, svelte, exports⟩
  | c :: cs => throw (otherType expected c cs)

end Manifest

end InlineComponents
