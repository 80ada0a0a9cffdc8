import InlineComponents.Compile
import InlineComponents.Event
import InlineComponents.FileSystem.Basic
import InlineComponents.SubComponent
import InlineComponents.Table

namespace InlineComponents

/-- What the outside learns of the work besides its results. -/
inductive Notice where
  | logged (event : Event)
  | compileAsked (source : String) (options : CompileOptions)
  | warningHandled (diagnostic : Diagnostic)

/-- A registered component; it is published from the time it is written until its release. -/
structure Artifact where
  component : SubComponent
  published : Bool
  deriving DecidableEq, Repr

/-- What the transforms of a build share. Paths are clean where they are keys. -/
structure Session (σ : Type) where
  files : σ
  artifacts : Table Path Artifact
  /-- The paths of the artifacts that the last extraction from a parent produced. -/
  children : Table Path (List Path)
  /-- The stylesheets by their ids. -/
  assets : Table String String
  /-- The packages met whose metadata is hidden, in ascending order. -/
  hidden : List String
  /-- The notices given, the last one first. -/
  journal : List Notice

namespace Session

variable {σ : Type}

def start (files : σ) : Session σ :=
  ⟨files, [], [], [], [], []⟩

def tell (s : Session σ) (notice : Notice) : Session σ :=
  { s with journal := notice :: s.journal }

def log (s : Session σ) (event : Event) : Session σ :=
  s.tell (.logged event)

def logAll (s : Session σ) (events : List Event) : Session σ :=
  events.foldl log s

def addAsset (s : Session σ) (id css : String) : Session σ :=
  { s with assets := s.assets.put id css }

def asset? (s : Session σ) (id : String) : Option String :=
  s.assets.find? id

/-- A name put where it belongs in an ascending list, unless it is there. -/
def insertName (names : List String) (name : String) : List String :=
  if name ∈ names then names
  else names.takeWhile (· < name) ++ name :: names.dropWhile (· < name)

def noteHidden (s : Session σ) (name : String) : Session σ :=
  { s with hidden := insertName s.hidden name }

/-- The packages met since they were taken last. -/
def takeHidden (s : Session σ) : List String × Session σ :=
  (s.hidden, { s with hidden := [] })

end Session

end InlineComponents
