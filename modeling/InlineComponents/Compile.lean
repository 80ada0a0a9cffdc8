import InlineComponents.Diagnostic.Basic
import InlineComponents.Json.Basic
import InlineComponents.Text.Blank

namespace InlineComponents

/-- Where the styles of a component go: into a stylesheet, or into the compiled code. -/
inductive CssMode where
  | external
  | injected
  deriving DecidableEq, Repr

namespace CssMode

def default : CssMode := .external

def name : CssMode → String
  | .external => "external"
  | .injected => "injected"

def ofEmitCss (emitCss : Bool) : CssMode :=
  if emitCss then .external else .injected

end CssMode

/-- What the compiler is asked for besides the source. -/
structure CompileOptions where
  filename : String
  css : CssMode
  extra : Fields

namespace CompileOptions

/-- The format of the compiled code. -/
def format : String := "esm"

/-- The options that the user does not decide. -/
def forced : List String :=
  ["filename", "format", "css"]

def ofUser (filename : String) (user : Fields) (emitCss : Bool) : CompileOptions :=
  ⟨filename, .ofEmitCss emitCss, user.filter fun field => field.1 ∉ forced⟩

def toJson (o : CompileOptions) : Json :=
  .object ([("filename", .string o.filename), ("format", .string format),
    ("css", .string o.css.name)] ++ o.extra)

end CompileOptions

/-- A compiled component. -/
structure CompileOutput where
  js : String
  map : Option String
  css : Option String
  warnings : List Diagnostic
  dependencies : List String

/-- A stylesheet with more than blanks in it. -/
def stylesheet (css : Option String) : Option String :=
  css.filter fun text => !allBlank text.toList

/-- A component as a preprocessor leaves it. -/
structure Preprocessed where
  code : String
  dependencies : List String

/-- Compiles a source, or says why it cannot. -/
abbrev Compiler : Type := String → CompileOptions → Except String CompileOutput

/-- Prepares a source of a file, or says why it cannot. -/
abbrev Preprocessor : Type := String → String → Except String Preprocessed

end InlineComponents
