import InlineComponents.FileSystem.Basic
import InlineComponents.Table

namespace InlineComponents

/-- What a name in a directory stands for. -/
inductive TreeEntry where
  | file (content : ByteArray)
  | directory (entries : List (String × TreeEntry))

/-- What a directory holds, by name. -/
abbrev TreeEntries : Type := Table String TreeEntry

/-- A directory tree, given by what its top directory holds. -/
structure Tree where
  entries : TreeEntries

/-- What there is in a tree, apart from what lies below it. -/
inductive TreeNode where
  | file (content : ByteArray)
  | directory

def TreeEntry.node : TreeEntry → TreeNode
  | .file content => .file content
  | .directory _ => .directory

namespace TreeEntries

/-- The entry with these names from the top. -/
def at? : TreeEntries → List String → Option TreeEntry
  | _, [] => none
  | entries, [name] => entries.find? name
  | entries, name :: names =>
    match entries.find? name with
    | some (.directory inner) => at? inner names
    | _ => none

/-- The directory that holds the last of the names, changed at that name. Nothing is changed where
one of the names before it is no directory's. -/
def edit (change : TreeEntries → String → TreeEntries) : TreeEntries → List String → TreeEntries
  | entries, [] => entries
  | entries, [name] => change entries name
  | entries, name :: names =>
    entries.modify name fun
      | .directory inner => .directory (edit change inner names)
      | file => file

end TreeEntries

mutual

/-- An entry and all that lies below it, by their names from the top. -/
def TreeEntry.nodes (here : List String) : TreeEntry → List (List String × TreeNode)
  | .file content => [(here, .file content)]
  | .directory entries => (here, .directory) :: TreeEntries.nodes here entries

def TreeEntries.nodes (here : List String) :
    List (String × TreeEntry) → List (List String × TreeNode)
  | [] => []
  | (name, entry) :: entries => entry.nodes (here ++ [name]) ++ TreeEntries.nodes here entries

end

namespace Tree

def empty : Tree :=
  ⟨[]⟩

/-- All there is below the top, by names from the top. -/
def nodes (t : Tree) : List (List String × TreeNode) :=
  TreeEntries.nodes [] t.entries

/-- The node with these names; the top itself is a directory. -/
def node? (t : Tree) (names : List String) : Option TreeNode :=
  if names = [] then some .directory else (TreeEntries.at? t.entries names).map TreeEntry.node

def erase (t : Tree) (names : List String) : Tree :=
  ⟨TreeEntries.edit Table.erase t.entries names⟩

/-- A file put into a directory that there is. -/
def putFile (t : Tree) (names : List String) (content : ByteArray) : Tree :=
  ⟨TreeEntries.edit (fun entries name => entries.put name (.file content)) t.entries names⟩

/-- An empty directory put into one that there is. -/
def addDirectory (t : Tree) (names : List String) : Tree :=
  ⟨TreeEntries.edit (fun entries name => entries.put name (.directory [])) t.entries names⟩

end Tree

end InlineComponents
