import InlineComponents.Event
import InlineComponents.Failure
import InlineComponents.Outline
import InlineComponents.SubComponent

namespace InlineComponents

/-- A parent without its blocks, and the components that were declared in them. -/
structure Extraction where
  residual : String
  components : List SubComponent
  deriving DecidableEq, Repr

def Extraction.isEmpty (e : Extraction) : Bool :=
  e.components.isEmpty

def Extraction.imports (e : Extraction) : List Import :=
  e.components.map SubComponent.toImport

/-- The most bytes that a source may have: ten mebibytes. -/
def maxSourceSize : Nat := 10 * 1024 * 1024

/-- A name that is to be declared in a file, refused if it is no declared name. -/
def checkName (file : Path) (name : String) : Except Failure Unit :=
  if isDeclaredName name then .ok () else .error (.invalidName file name)

def Block.component (naming : ArtifactNaming) (b : Block) : SubComponent :=
  ⟨b.name, naming.path b.name, String.ofList (render b.body)⟩

/-- A component given again takes the place of the one of its name. -/
def putComponent (c : SubComponent) : List SubComponent → List SubComponent
  | [] => [c]
  | old :: others => if old.name = c.name then c :: others else old :: putComponent c others

/-- One component for each name, in the order in which the names were first given. -/
def Outline.components (o : Outline) (file : Path) : List SubComponent :=
  let naming := ArtifactNaming.ofParent file
  o.blocks.foldl (fun components b => putComponent (b.component naming) components) []

/-- The names that are given again, as often as they are. -/
def repeats (names : List String) : List String :=
  go [] [] names
where
  go (seen found : List String) : List String → List String
    | [] => found.reverse
    | name :: names =>
      if seen.contains name then go seen (name :: found) names else go (name :: seen) found names

def Outline.repeated (o : Outline) : List String :=
  repeats (o.blocks.map Block.name)

/-- The failure of a block that is not well formed, told by its name and where it is opened. -/
def Outline.failure? (o : Outline) (file : Path) : Option Failure :=
  o.stop.map fun
    | .invalidName name => .invalidName file name
    | .unclosed name => .unclosedBlock file name (byteLength (render o.pieces))

def Outline.extraction (o : Outline) (file : Path) : Extraction :=
  ⟨String.ofList (render o.kept), o.components file⟩

/-- The extraction of an outline. A name given again is a failure that comes before that of a
later block, or else an event. -/
def Outline.extract (o : Outline) (file : Path) (policy : DuplicatePolicy) :
    List Event × Except Failure Extraction :=
  match policy, o.repeated with
  | .error, name :: _ => ([], .error (.duplicateName file name))
  | _, repeated =>
    (repeated.map (.nameRepeated file),
      match o.failure? file with
      | some failure => .error failure
      | none => .ok (o.extraction file))

/-- Every named block lifted out of a source. Nothing is extracted unless all blocks are well
formed. -/
def extract (source : String) (file : Path) (policy : DuplicatePolicy) :
    List Event × Except Failure Extraction :=
  if maxSourceSize < source.utf8ByteSize then
    ([], .error (.sourceTooLarge file source.utf8ByteSize maxSourceSize))
  else (outline (pieces source.toList)).extract file policy

end InlineComponents
