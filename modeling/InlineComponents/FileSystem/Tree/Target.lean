import InlineComponents.FileSystem.Tree.Basic
import InlineComponents.Text.Cut

namespace InlineComponents

/-- Why an operation on the tree is refused. -/
inductive TreeError where
  | noEntry
  | notDirectory
  | isDirectory
  | busy
  | nameTooLong
  | nulInName
  deriving DecidableEq, Repr

def TreeError.message : TreeError → String
  | .noEntry => "No such file or directory (os error 2)"
  | .notDirectory => "Not a directory (os error 20)"
  | .isDirectory => "Is a directory (os error 21)"
  | .busy => "Device or resource busy (os error 16)"
  | .nameTooLong => "File name too long (os error 36)"
  | .nulInName => "file name contained an unexpected NUL byte"

/-- A missing entry is reported by the path, any other refusal with the action that failed. -/
def TreeError.toFileError (error : TreeError) (action : String) (path : Path) : FileError :=
  match error with
  | .noEntry => .notFound path
  | error => .io ("Failed to " ++ action ++ " " ++ path.text ++ ": " ++ error.message)

namespace Tree

/-- The most bytes that a name can have. -/
def maxNameSize : Nat := 255

/-- The most bytes that a path can have. -/
def maxPathSize : Nat := 4095

/-- Where a walk through a path ends: in a directory that is entered by a dot, two dots or a
slash, or at a name in a directory, which may have a slash after it. -/
inductive Target where
  | directory (names : List String)
  | entry (directory : List String) (name : String) (slash : Bool)

/-- The directories that a walk is in, innermost first, each with its name and what it holds. The
top is not among them. -/
abbrev Trail : Type := List (String × TreeEntries)

def Trail.names (trail : Trail) : List String :=
  (trail.map Prod.fst).reverse

/-- What the innermost directory holds. -/
def Trail.entries (top : TreeEntries) : Trail → TreeEntries
  | [] => top
  | (_, entries) :: _ => entries

/-- The walk from a directory along segments. Only directories can be entered, and a parent is
found in the tree, not in the text. -/
def walk (top : TreeEntries) (here : Trail) : List (List Char) → Except TreeError Target
  | [] => .ok (.directory here.names)
  | segment :: rest =>
    if Path.isIdle segment then walk top here rest
    else if segment = ['.', '.'] then walk top here.tail rest
    else
      let name := String.ofList segment
      if maxNameSize < name.utf8ByteSize then .error .nameTooLong
      else if rest.all fun s => s = [] then .ok (.entry here.names name (rest ≠ []))
      else
        match (here.entries top).find? name with
        | none => .error .noEntry
        | some (.file _) => .error .notDirectory
        | some (.directory entries) => walk top ((name, entries) :: here) rest

def target (t : Tree) (path : Path) : Except TreeError Target :=
  if path.text.contains '\x00' then .error .nulInName
  else if path.text = "" then .error .noEntry
  else if maxPathSize < path.text.utf8ByteSize then .error .nameTooLong
  else walk t.entries [] (splitAll '/' path.text.toList)

end Tree

end InlineComponents
