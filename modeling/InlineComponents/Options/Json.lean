import InlineComponents.Event
import InlineComponents.Failure
import InlineComponents.Json.Shape
import InlineComponents.Options.Basic

namespace InlineComponents

def DuplicatePolicy.ofJson : Json → Shaped DuplicatePolicy :=
  Json.asChoice (DuplicatePolicy.lastWins.name, .lastWins) (DuplicatePolicy.error.name, .error)

namespace Options

/-- The names that have a meaning; the last two are set by a program, not by data. -/
def known : List String :=
  ["compilerOptions", "include", "exclude", "extensions", "emitCss", "onDuplicate", "onwarn",
    "preprocess"]

/-- The keys of an object that have no meaning, in ascending order. -/
def unrecognized : Json → List String
  | .object fields =>
    ((fields.map Prod.fst).filter fun key => key ∉ known).mergeSort fun a b => a ≤ b
  | _ => []

def readField (o : Options) (field : String × Json) : Shaped Options :=
  match field.1 with
  | "compilerOptions" => do pure { o with compilerOptions := ← field.2.asFields }
  | "include" => do pure { o with included := ← field.2.asStrings }
  | "exclude" => do pure { o with excluded := ← field.2.asStrings }
  | "extensions" => do pure { o with extensions := ← field.2.asStrings }
  | "emitCss" => do pure { o with emitCss := ← field.2.asBool }
  | "onDuplicate" => do pure { o with onDuplicate := ← DuplicatePolicy.ofJson field.2 }
  | _ => .ok o

/-- The options that an object gives; what it does not give keeps its default. -/
def ofJson (json : Json) : Except OptionsFault Options :=
  match json with
  | .object fields => (fields.foldlM readField .default).mapError .shape
  | json => .error (.notAnObject json)

/-- The options that an object gives, with an event for each key that has no meaning. -/
def read (json : Json) : List Event × Except Failure Options :=
  ((unrecognized json).map .optionUnrecognized, (ofJson json).mapError .invalidOptions)

def toJson (o : Options) : Json :=
  .object [("compilerOptions", .object o.compilerOptions), ("include", .strings o.included),
    ("exclude", .strings o.excluded), ("extensions", .strings o.extensions),
    ("emitCss", .bool o.emitCss), ("onDuplicate", .string o.onDuplicate.name)]

end Options

end InlineComponents
