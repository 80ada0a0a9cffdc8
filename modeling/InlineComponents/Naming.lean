import InlineComponents.Path.FileName

namespace InlineComponents

/-- Stands between the parent's stem and the declared name, and is in no declared name. -/
def separator : String := "__"

def isUpper (c : Char) : Bool :=
  'A' ≤ c && c ≤ 'Z'

def isWordChar (c : Char) : Bool :=
  isUpper c || ('a' ≤ c && c ≤ 'z') || ('0' ≤ c && c ≤ '9') || c = '_'

/-- A declared name begins with an ASCII capital, goes on with ASCII letters, digits and
underscores, and does not hold the separator. -/
def isDeclaredName (name : String) : Bool :=
  match name.toList with
  | [] => false
  | c :: cs => isUpper c && cs.all isWordChar && !occursIn separator.toList (c :: cs)

/-- What the artifacts of one parent share: where they lie, beside the parent, and what their file
names have before and after the declared name. -/
structure ArtifactNaming where
  place : Path
  before : String
  after : String
  deriving DecidableEq, Repr

namespace ArtifactNaming

def ofParent (parent : Path) : ArtifactNaming where
  place := parent.place
  before := parent.fileStem.getD "" ++ separator
  after := match parent.extension with
    | some extension => "." ++ extension
    | none => ""

def fileName (n : ArtifactNaming) (name : String) : String :=
  n.before ++ name ++ n.after

def path (n : ArtifactNaming) (name : String) : Path :=
  n.place.join (n.fileName name)

end ArtifactNaming

/-- The file name of the artifact that `name`, declared in `parent`, is written to. -/
def artifactFileName (parent : Path) (name : String) : String :=
  (ArtifactNaming.ofParent parent).fileName name

def artifactPath (parent : Path) (name : String) : Path :=
  (ArtifactNaming.ofParent parent).path name

/-- An artifact lies beside its parent. -/
theorem artifactPath_eq (parent : Path) (name : String) :
    artifactPath parent name = parent.withFileName (artifactFileName parent name) :=
  rfl

/-- The declared name that an artifact's file name carries. -/
def declaredName? (fileName : String) : Option String := do
  let stem ← Path.fileStem ⟨fileName⟩
  let (_, name) ← splitLast separator.toList stem.toList
  if isDeclaredName (String.ofList name) then some (String.ofList name) else none

/-- The extension without the dots it is written with. -/
def bareExtension (extension : String) : String :=
  String.ofList (extension.toList.dropWhile (· = '.'))

/-- Whether a module's id is that of an artifact with one of the claimed extensions. -/
def isArtifactId (id : String) (extensions : List String) : Bool :=
  let path : Path := ⟨id⟩
  let claimed := path.extension.any fun e => extensions.any fun x => bareExtension x = e
  claimed && ((path.fileName.bind declaredName?).isSome)

/-- The id of a component's stylesheet. -/
def stylesheetId (id : String) : String :=
  (Path.withExtension ⟨id⟩ "css").text

end InlineComponents
