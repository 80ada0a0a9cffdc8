import InlineComponents.Failure
import InlineComponents.Path.Order
import InlineComponents.Session.Basic

namespace InlineComponents

namespace Session

variable {σ : Type} [FileSystem σ]

def artifact? (s : Session σ) (path : Path) : Option Artifact :=
  s.artifacts.find? path.clean

def isPublished (s : Session σ) (path : Path) : Bool :=
  (s.artifact? path).any Artifact.published

/-- The paths of the artifacts, in order. -/
def artifactPaths (s : Session σ) : List Path :=
  Path.sorted s.artifacts.keys

/-- A component made known under its path; it is not published until it is written. -/
def register (s : Session σ) (c : SubComponent) : Session σ :=
  { s with artifacts := s.artifacts.put c.path.clean ⟨c, false⟩ }

def setPublished (s : Session σ) (key : Path) (published : Bool) : Session σ :=
  match s.artifacts.find? key with
  | some artifact => { s with artifacts := s.artifacts.put key { artifact with published } }
  | none => s

/-- The body written to the component's file. -/
def materialize (s : Session σ) (c : SubComponent) : Except Failure Unit × Session σ :=
  match FileSystem.write s.files c.path c.body.toUTF8 with
  | (.error cause, files) => (.error (.artifactNotWritten c.path cause), { s with files })
  | (.ok (), files) => (.ok (), { s with files }.setPublished c.path.clean true)

/-- A component registered and written. -/
def publish (s : Session σ) (c : SubComponent) : Except Failure Unit × Session σ :=
  match (s.register c).materialize c with
  | (.error failure, s) => (.error failure, s)
  | (.ok (), s) => (.ok (), s.log (.artifactPublished c.path))

/-- Components treated one after the other until one fails. -/
def forEach (act : Session σ → SubComponent → Except Failure Unit × Session σ) (s : Session σ) :
    List SubComponent → Except Failure Unit × Session σ
  | [] => (.ok (), s)
  | c :: cs =>
    match act s c with
    | (.error failure, s) => (.error failure, s)
    | (.ok (), s) => forEach act s cs

def publishAll (s : Session σ) (cs : List SubComponent) : Except Failure Unit × Session σ :=
  s.forEach publish cs

/-- Every known component written again. -/
def materializeAll (s : Session σ) : Except Failure Nat × Session σ :=
  let components := s.artifacts.map fun entry => entry.2.component
  match s.forEach materialize components with
  | (.error failure, s) => (.error failure, s)
  | (.ok (), s) =>
    (.ok components.length,
      if components.isEmpty then s else s.log (.artifactsMaterialized components.length))

/-- An artifact's file deleted. That it is gone already is no matter, and another failure is only
logged. -/
def removeFile (s : Session σ) (path : Path) : Session σ :=
  match FileSystem.remove s.files path with
  | (.ok (), files) => { s with files }.log (.artifactReleased path)
  | (.error cause, files) =>
    if cause.isNotFound then { s with files }
    else { s with files }.log (.artifactNotReleased path cause)

/-- The file of a published artifact deleted; any other path is left alone. -/
def release (s : Session σ) (path : Path) : Bool × Session σ :=
  if s.isPublished path then
    (true, (s.setPublished path.clean false).removeFile path.clean)
  else (false, s)

/-- An artifact forgotten and its file deleted. -/
def drop (s : Session σ) (key : Path) : Session σ :=
  { s with artifacts := s.artifacts.erase key }.removeFile key

def setChildren (s : Session σ) (parent : Path) (paths : List Path) : Session σ :=
  { s with
    children := if paths.isEmpty then s.children.erase parent else s.children.put parent paths }

/-- The artifacts that a parent declared last time and no longer does, forgotten and deleted; how
many they are. -/
def retain (s : Session σ) (parent : Path) (current : List SubComponent) : Nat × Session σ :=
  let keep := current.map fun c => c.path.clean
  let previous := (s.children.find? parent.clean).getD []
  let stale := previous.filter (· ∉ keep)
  let dropped := stale.foldl drop (s.setChildren parent.clean keep)
  (stale.length,
    if stale.isEmpty then dropped
    else dropped.log (.staleArtifactsDropped parent.clean stale.length))

end Session

end InlineComponents
