import InlineComponents.FileSystem.Basic
import InlineComponents.Table

namespace InlineComponents

/-- Files by their cleaned paths. -/
abbrev FileTable : Type := Table Path ByteArray

/-- Files kept in memory. Paths are cleaned before they are looked up, and directories exist as
far as files lie below them. -/
structure Memory where
  files : FileTable
  readOnly : Bool

namespace Memory

def empty : Memory :=
  ⟨[], false⟩

/-- A file put there whether or not writing is allowed. -/
def insert (m : Memory) (path : Path) (content : ByteArray) : Memory :=
  { m with files := m.files.put path.clean content }

def setReadOnly (m : Memory) (readOnly : Bool) : Memory :=
  { m with readOnly }

def contents (m : Memory) (path : Path) : Option ByteArray :=
  m.files.find? path.clean

/-- Some file lies strictly below the cleaned path: its path goes on after a slash. -/
def isDirectory (m : Memory) (path : Path) : Bool :=
  let start := (path.join "").text
  m.files.any fun file => file.1.text.startsWith start && file.1 ≠ path

def read (m : Memory) (path : Path) : Except FileError ByteArray :=
  match m.contents path with
  | some content => .ok content
  | none => .error (.notFound path)

def write (m : Memory) (path : Path) (content : ByteArray) : Except FileError Unit × Memory :=
  if m.readOnly then
    (.error (.io ("Failed to write " ++ path.text ++ ": read-only filesystem")), m)
  else (.ok (), m.insert path content)

def remove (m : Memory) (path : Path) : Except FileError Unit × Memory :=
  match m.contents path with
  | some _ => (.ok (), { m with files := m.files.erase path.clean })
  | none => (.error (.notFound path), m)

def stat (m : Memory) (path : Path) : Except FileError FileInfo :=
  match m.contents path with
  | some content => .ok (.file content.size)
  | none => if m.isDirectory path.clean then .ok .directory else .error (.notFound path.clean)

def pathExists (m : Memory) (path : Path) : Bool :=
  let path := path.clean
  (m.files.find? path).isSome || m.isDirectory path

end Memory

instance : FileSystem Memory where
  read := Memory.read
  write := Memory.write
  remove := Memory.remove
  stat := Memory.stat
  pathExists := Memory.pathExists

end InlineComponents
