import InlineComponents.Json.Record
import InlineComponents.Json.Shape
import InlineComponents.SourceMap.Mappings

namespace InlineComponents

/-- What the host needs of a source map. -/
structure SourceMap where
  sources : List String
  deriving DecidableEq, Repr

namespace SourceMap

/-- The fields of a source map, in the order in which a list gives them. -/
def fieldNames : List String :=
  ["version", "file", "mappings", "sourceRoot", "sources", "sourcesContent", "names", "debugId",
    "x_google_ignoreList"]

/-- The field that a key stands for. -/
def fieldName? (key : String) : Option String :=
  fieldNames.find? (· = if key = "ignoreList" then "x_google_ignoreList" else key)

/-- One field after its key; the value of a key that stands for none is skipped. -/
def readField (fields : Fields) (key : String) (s : List Char) :
    Except JsonFault (Fields × List Char) := do
  match fieldName? key with
  | none => pure (fields, ← skipValue (← readColon s))
  | some name =>
    once (fields.find? name).isSome name
    let (value, rest) ← readInner (← readColon s)
    pure (fields.put name value, rest)

/-- The fields that a text gives, as an object or as a list of all of them. -/
def readFields? (text : String) : Option Fields :=
  match dropJsonBlanks text.toList with
  | '{' :: cs => do
    let (fields, rest) ← (readRecord readField [] cs).toOption
    (readEnd rest).toOption
    pure fields
  | _ =>
    match Json.read text with
    | .ok (.array values) =>
      if values.length = fieldNames.length then some (fieldNames.zip values) else none
    | _ => none

/-- A field that may be left out or given as `null`. -/
def optionalField {α : Type} (as : Json → Shaped α) (fields : Fields) (name : String) :
    Shaped (Option α) :=
  ((fields.find? name).getD .null).asOptional as

/-- The map that fields describe: its version is 3, each field has its type, and what refers to
sources and names refers to some that there are. -/
def ofFields? (fields : Fields) : Option SourceMap := do
  let version ← (← fields.find? "version").asUInt32.toOption
  guard (version = 3)
  let _ ← (optionalField Json.asString fields "file").toOption
  let mappings ← (← fields.find? "mappings").asString.toOption
  let _ ← (optionalField Json.asString fields "sourceRoot").toOption
  let sources ← (← fields.find? "sources").asStrings.toOption
  let _ ← (optionalField (Json.asList (Json.asOptional Json.asString)) fields
    "sourcesContent").toOption
  let names ← ((fields.find? "names").getD (.array [])).asStrings.toOption
  let _ ← (optionalField Json.asString fields "debugId").toOption
  let ignored ← (optionalField (Json.asList Json.asUInt32) fields "x_google_ignoreList").toOption
  let count := sources.length
  guard ((ignored.getD []).all fun index => index.toNat < count)
  guard (mappingsHold mappings count names.length)
  pure ⟨sources⟩

/-- The source map that a text is. -/
def read (text : String) : Option SourceMap :=
  (readFields? text).bind ofFields?

end SourceMap

end InlineComponents
