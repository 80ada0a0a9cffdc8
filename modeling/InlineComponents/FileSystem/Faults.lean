import InlineComponents.FileSystem.Basic

namespace InlineComponents

/-- The operations that a fault can be set on. -/
inductive FileCall where
  | read
  | write
  | stat
  | remove
  deriving DecidableEq, Repr

inductive FaultKind where
  | io
  | other
  | notFound
  deriving DecidableEq, Repr

/-- A call on a path that fails however the path is spelled; a missing file is reported by the
spelling that the fault was set with. -/
structure Fault where
  call : FileCall
  path : Path
  kind : FaultKind
  reason : String
  deriving DecidableEq, Repr

def Fault.error (fault : Fault) : FileError :=
  match fault.kind with
  | .io => .io fault.reason
  | .other => .other fault.reason
  | .notFound => .notFound fault.path

/-- Files on which chosen calls fail. -/
structure Faulty (σ : Type) where
  files : σ
  faults : List Fault

namespace Faulty

variable {σ : Type} [FileSystem σ]

/-- The error that a call on a path fails with; the fault that was set last counts. -/
def fault? (f : Faulty σ) (call : FileCall) (path : Path) : Option FileError :=
  let path := path.clean
  (f.faults.find? fun fault => fault.call = call && fault.path.clean = path).map Fault.error

def read (f : Faulty σ) (path : Path) : Except FileError ByteArray :=
  match f.fault? .read path with
  | some error => .error error
  | none => FileSystem.read f.files path

def write (f : Faulty σ) (path : Path) (content : ByteArray) : Except FileError Unit × Faulty σ :=
  match f.fault? .write path with
  | some error => (.error error, f)
  | none =>
    let (result, files) := FileSystem.write f.files path content
    (result, { f with files })

def remove (f : Faulty σ) (path : Path) : Except FileError Unit × Faulty σ :=
  match f.fault? .remove path with
  | some error => (.error error, f)
  | none =>
    let (result, files) := FileSystem.remove f.files path
    (result, { f with files })

def stat (f : Faulty σ) (path : Path) : Except FileError FileInfo :=
  match f.fault? .stat path with
  | some error => .error error
  | none => FileSystem.stat f.files path

def pathExists (f : Faulty σ) (path : Path) : Bool :=
  FileSystem.pathExists f.files path

/-- A fault set; it comes before those set earlier. -/
def addFault (f : Faulty σ) (fault : Fault) : Faulty σ :=
  { f with faults := fault :: f.faults }

def clearFaults (f : Faulty σ) : Faulty σ :=
  { f with faults := [] }

end Faulty

instance {σ : Type} [FileSystem σ] : FileSystem (Faulty σ) where
  read := Faulty.read
  write := Faulty.write
  remove := Faulty.remove
  stat := Faulty.stat
  pathExists := Faulty.pathExists

end InlineComponents
