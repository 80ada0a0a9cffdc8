import InlineComponents.Path.Ancestors

namespace InlineComponents

namespace Path

/-- The last component when it is a name. -/
def fileName (p : Path) : Option String :=
  match p.split.2.getLast? with
  | none => none
  | some last => if last = ['.', '.'] then none else some (String.ofList last)

/-- A file name at its last dot; a dot in front begins a name that has no extension. -/
def splitExtension (name : String) : String × Option String :=
  match splitLast ['.'] name.toList with
  | none => (name, none)
  | some ([], _) => (name, none)
  | some (stem, extension) => (String.ofList stem, some (String.ofList extension))

def fileStem (p : Path) : Option String :=
  p.fileName.map fun name => (splitExtension name).1

def extension (p : Path) : Option String :=
  p.fileName.bind fun name => (splitExtension name).2

/-- Where the files beside a path lie; a path that ends in no name is that place itself. -/
def place (p : Path) : Path :=
  if p.fileName.isSome then p.parent.getD p else p

/-- The last component replaced when it is a name; otherwise the name is added. -/
def withFileName (p : Path) (name : String) : Path :=
  p.place.join name

/-- The path cut after its stem, and the extension added. A file `..x` is cut to its parent's
name `..` first, which has no stem to add to. -/
def withExtension (p : Path) (extension : String) : Path :=
  match p.fileName with
  | none => p
  | some name =>
    let (lead, segments) := p.split
    let upTo (last : String) : String := glue lead (segments.dropLast ++ [last.toList])
    let (stem, old) := splitExtension name
    if stem = "." && old.any (· ≠ "") && upTo name = p.text then ⟨upTo ".."⟩
    else ⟨upTo stem ++ "." ++ extension⟩

end Path

end InlineComponents
