import InlineComponents.Json.Basic
import InlineComponents.SubComponent

namespace InlineComponents

/-- What the user may decide. -/
structure Options where
  /-- Handed on to the compiler. -/
  compilerOptions : Fields
  /-- Only ids that hold one of these texts are transformed, if there are any. -/
  included : List String
  /-- Ids that hold one of these texts are not transformed. -/
  excluded : List String
  /-- The endings of the ids that are claimed. -/
  extensions : List String
  /-- Whether stylesheets become files of their own. -/
  emitCss : Bool
  onDuplicate : DuplicatePolicy

namespace Options

def default : Options where
  compilerOptions := []
  included := []
  excluded := []
  extensions := [".svelte"]
  emitCss := true
  onDuplicate := .default

def withCompilerOption (o : Options) (key : String) (value : Json) : Options :=
  { o with compilerOptions := o.compilerOptions.put key value }

def withIncluded (o : Options) (part : String) : Options :=
  { o with included := o.included ++ [part] }

def withExcluded (o : Options) (part : String) : Options :=
  { o with excluded := o.excluded ++ [part] }

/-- The id ends as one of the claimed extensions says. -/
def claims (o : Options) (id : String) : Bool :=
  o.extensions.any fun extension => id.endsWith extension

/-- The id is claimed, not excluded, and included if only some are. -/
def shouldTransform (o : Options) (id : String) : Bool :=
  let holds (part : String) : Bool := id.contains part
  o.claims id && !o.excluded.any holds && (o.included.isEmpty || o.included.any holds)

end Options

end InlineComponents
