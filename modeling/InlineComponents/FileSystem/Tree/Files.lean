import InlineComponents.FileSystem.Tree.Target
import InlineComponents.Path.FileName

namespace InlineComponents

namespace Tree

/-- The node that a path leads to; a slash after a file is refused. -/
def lookUp (t : Tree) (path : Path) : Except TreeError TreeNode := do
  match ← t.target path with
  | .directory _ => pure .directory
  | .entry directory name slash =>
    match t.node? (directory ++ [name]) with
    | none => throw .noEntry
    | some (.file content) => if slash then throw .notDirectory else pure (.file content)
    | some .directory => pure .directory

def readFile (t : Tree) (path : Path) : Except TreeError ByteArray := do
  match ← t.lookUp path with
  | .file content => pure content
  | .directory => throw .isDirectory

def statNode (t : Tree) (path : Path) : Except TreeError FileInfo := do
  match ← t.lookUp path with
  | .file content => pure (.file content.size)
  | .directory => pure .directory

/-- A file created, or its content replaced. -/
def create (t : Tree) (path : Path) (content : ByteArray) : Except TreeError Tree := do
  match ← t.target path with
  | .directory _ => throw .isDirectory
  | .entry directory name slash =>
    if slash then throw .isDirectory
    match t.node? (directory ++ [name]) with
    | some .directory => throw .isDirectory
    | _ => pure (t.putFile (directory ++ [name]) content)

def unlink (t : Tree) (path : Path) : Except TreeError Tree := do
  match ← t.target path with
  | .directory _ => throw .isDirectory
  | .entry directory name slash =>
    match t.node? (directory ++ [name]) with
    | none => throw .noEntry
    | some .directory => throw .isDirectory
    | some (.file _) => if slash then throw .notDirectory else pure (t.erase (directory ++ [name]))

/-- The file at `source` put in the place of what `path` leads to. -/
def rename (t : Tree) (source path : Path) : Except TreeError Tree := do
  match ← t.target source, ← t.target path with
  | .entry sourceDir sourceName _, .entry directory name slash =>
    match t.node? (sourceDir ++ [sourceName]) with
    | none => throw .noEntry
    | some .directory => throw .busy
    | some (.file content) =>
      if slash then throw .notDirectory
      match t.node? (directory ++ [name]) with
      | some .directory => throw .isDirectory
      | _ => pure ((t.erase (sourceDir ++ [sourceName])).putFile (directory ++ [name]) content)
  | _, _ => throw .busy

/-- The name of the file that is written before it takes the place of another. -/
def temporary (path : Path) (token : String) : Path :=
  path.withFileName ("." ++ path.fileName.getD "" ++ "." ++ token ++ ".tmp")

/-- The content is written beside its destination and then renamed over it, so that the
destination never holds a part of it. -/
def write (token : String) (t : Tree) (path : Path) (content : ByteArray) :
    Except FileError Unit × Tree :=
  let temp := temporary path token
  match t.create temp content with
  | .error e => (.error (e.toFileError "write" temp), t)
  | .ok written =>
    match written.rename temp path with
    | .ok renamed => (.ok (), renamed)
    | .error e =>
      let left := match written.unlink temp with
        | .ok cleared => cleared
        | .error _ => written
      (.error (e.toFileError "replace" path), left)

def read (t : Tree) (path : Path) : Except FileError ByteArray :=
  match t.readFile path with
  | .ok content => .ok content
  | .error e => .error (e.toFileError "read" path)

def stat (t : Tree) (path : Path) : Except FileError FileInfo :=
  match t.statNode path with
  | .ok info => .ok info
  | .error e => .error (e.toFileError "stat" path)

def remove (t : Tree) (path : Path) : Except FileError Unit × Tree :=
  match t.unlink path with
  | .ok cleared => (.ok (), cleared)
  | .error e => (.error (e.toFileError "remove" path), t)

def pathExists (t : Tree) (path : Path) : Bool :=
  (t.lookUp path).toOption.isSome

/-- The directories of a path created as far as they are missing. -/
def makeDirectories (t : Tree) (here : List String) : List (List Char) → Tree × List String
  | [] => (t, here)
  | segment :: rest =>
    if Path.isIdle segment then t.makeDirectories here rest
    else if segment = ['.', '.'] then t.makeDirectories here.dropLast rest
    else
      let names := here ++ [String.ofList segment]
      match t.node? names with
      | some _ => t.makeDirectories names rest
      | none => (t.addDirectory names).makeDirectories names rest

/-- A file put into the tree with the directories above it. -/
def seed (t : Tree) (path : Path) (content : ByteArray) : Tree :=
  let above := (path.parent.map fun p => splitAll '/' p.text.toList).getD []
  let (t, _) := t.makeDirectories [] above
  match t.create path content with
  | .ok created => created
  | .error _ => t

end Tree

/-- The word that sets a temporary file's name apart from every other name. One word is enough,
since no temporary file is left when a write has ended. -/
def temporaryToken : String := "00000000-0000-4000-8000-000000000000"

instance : FileSystem Tree where
  read := Tree.read
  write := Tree.write temporaryToken
  remove := Tree.remove
  stat := Tree.stat
  pathExists := Tree.pathExists

end InlineComponents
