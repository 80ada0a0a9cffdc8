import InlineComponents.Naming

namespace InlineComponents

/-- A component declared inside another: its name, the file it is written to, and its source. -/
structure SubComponent where
  name : String
  path : Path
  body : String
  deriving DecidableEq, Repr

/-- A name that the parent imports from a file beside it. -/
structure Import where
  name : String
  fileName : String
  deriving DecidableEq, Repr

namespace SubComponent

/-- The component `name` declared in `parent`. -/
def declared (parent : Path) (name body : String) : SubComponent :=
  ⟨name, artifactPath parent name, body⟩

def toImport (c : SubComponent) : Import :=
  ⟨c.name, c.path.fileName.getD ""⟩

end SubComponent

/-- What a name given again means for the block that had it first. -/
inductive DuplicatePolicy where
  | lastWins
  | error
  deriving DecidableEq, Repr

namespace DuplicatePolicy

def default : DuplicatePolicy := .lastWins

def name : DuplicatePolicy → String
  | .lastWins => "lastWins"
  | .error => "error"

end DuplicatePolicy

end InlineComponents
