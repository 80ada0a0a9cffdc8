import InlineComponents.Package.Descriptor
import InlineComponents.Path.Ancestors

namespace InlineComponents

/-- What a search for a package comes to. -/
inductive Lookup where
  | found (package : Package)
  | missing
  | hidden (name : String)
  | failed (failure : Failure)

namespace Package

/-- The most bytes that metadata may have: ten mebibytes. -/
def maxMetadataSize : Nat := 10 * 1024 * 1024

/-- The names between the slashes are names indeed. -/
def isPlainName (name : String) : Bool :=
  (splitAll '/' name.toList).all fun segment =>
    segment ≠ [] && segment ≠ ['.'] && segment ≠ ['.', '.']

/-- Where a package is if it is installed in a directory. -/
def installedIn (dir : Path) (name : String) : Path :=
  (dir.join "node_modules").join name

variable {σ : Type} [FileSystem σ]

/-- Whether a package is installed in a directory, with metadata. -/
def hasPackage (files : σ) (name : String) (dir : Path) : Bool :=
  FileSystem.pathExists files (metadataPath (installedIn dir name))

/-- The text of the metadata at a path. -/
def readMetadata (files : σ) (path : Path) : Except PackageFault String := do
  let info ← (FileSystem.stat files path).mapError .unknownSize
  if maxMetadataSize < info.size then
    throw .tooLarge
  let content ← (FileSystem.read files path).mapError .unreadable
  match utf8Fault? content.toList with
  | some fault => throw (.notUtf8 fault)
  | none => pure (textOfBytes content)

/-- The package in a directory that has metadata. -/
def load (files : σ) (dir : Path) : Except Failure Package :=
  match readMetadata files (metadataPath dir) with
  | .error fault => .error (.package (metadataPath dir) fault)
  | .ok text => parse dir text

/-- The package in a directory with metadata, unless its exports hide that. -/
def lookUpIn (files : σ) (name : String) (dir : Path) : Lookup :=
  match load files dir with
  | .error failure => .failed failure
  | .ok package => if package.hidesMetadata then .hidden name else .found package

/-- The package of a name, installed in a directory or in the nearest one above it. -/
def lookUp (files : σ) (name : String) (dir : Path) : Lookup :=
  if isPlainName name then
    match dir.nearest? (hasPackage files name) with
    | some above => lookUpIn files name (installedIn above name)
    | none => .missing
  else .missing

end Package

end InlineComponents
