import InlineComponents.Path.Clean

namespace InlineComponents

inductive FileError where
  | notFound (path : Path)
  | io (reason : String)
  | other (reason : String)
  deriving DecidableEq, Repr

def FileError.message : FileError → String
  | .notFound path => "File not found: " ++ path.text
  | .io reason => "I/O error: " ++ reason
  | .other reason => "Runtime error: " ++ reason

def FileError.isNotFound : FileError → Bool
  | .notFound _ => true
  | _ => false

inductive FileInfo where
  | file (size : Nat)
  | directory
  deriving DecidableEq, Repr

def FileInfo.size : FileInfo → Nat
  | .file size => size
  | .directory => 0

/-- What the program asks of the files it works on. An operation that changes them gives the files
as they are afterwards, also when it fails. -/
class FileSystem (σ : Type) where
  read : σ → Path → Except FileError ByteArray
  write : σ → Path → ByteArray → Except FileError Unit × σ
  remove : σ → Path → Except FileError Unit × σ
  stat : σ → Path → Except FileError FileInfo
  pathExists : σ → Path → Bool

end InlineComponents
