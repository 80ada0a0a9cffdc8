import InlineComponents.Options.Basic
import InlineComponents.Text.Quoted

namespace InlineComponents

def listed (texts : List String) : String :=
  "[" ++ String.intercalate ", " texts ++ "]"

def braced (texts : List String) : String :=
  "\x7b" ++ String.intercalate ", " texts ++ "\x7d"

mutual

/-- A value with the name of its kind, for a message to a developer. -/
def Json.described : Json → String
  | .null => "Null"
  | .bool value => "Bool(" ++ toString value ++ ")"
  | .number value => "Number(" ++ value.text ++ ")"
  | .string text => "String(" ++ quoted text ++ ")"
  | .array items => "Array " ++ listed (describedItems items)
  | .object fields => "Object " ++ braced (describedFields fields)

def Json.describedItems : List Json → List String
  | [] => []
  | item :: items => item.described :: describedItems items

def Json.describedFields : List (String × Json) → List String
  | [] => []
  | (key, value) :: fields => (quoted key ++ ": " ++ value.described) :: describedFields fields

end

def DuplicatePolicy.described : DuplicatePolicy → String
  | .lastWins => "LastWins"
  | .error => "Error"

/-- The options for a message to a developer; a handler of warnings is only said to be there. -/
def Options.described (o : Options) (handled : Bool) : String :=
  let field (name value : String) : String := name ++ ": " ++ value
  "SvelteInlineOptions \x7b " ++ String.intercalate ", "
    [field "compiler_options" (braced (Json.describedFields o.compilerOptions)),
      field "include" (listed (o.included.map quoted)),
      field "exclude" (listed (o.excluded.map quoted)),
      field "extensions" (listed (o.extensions.map quoted)),
      field "emit_css" (toString o.emitCss),
      field "on_duplicate" o.onDuplicate.described,
      field "on_warn" (toString handled),
      field "preprocess" "None"] ++ " \x7d"

end InlineComponents
