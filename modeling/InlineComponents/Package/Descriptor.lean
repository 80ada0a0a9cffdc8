import InlineComponents.Failure
import InlineComponents.Package.Reader

namespace InlineComponents

/-- What is known of a package: where it is, and what its metadata says about its components. -/
structure Package where
  dir : Path
  name : Option String
  svelte : Option String
  exports : Option Json

deriving instance DecidableEq for Package

namespace Package

def metadataName : String := "package.json"

/-- The key under which a package gives its metadata away. -/
def metadataKey : String := "./package.json"

def metadataPath (dir : Path) : Path :=
  dir.join metadataName

/-- The package in a directory whose metadata has that text. -/
def parse (dir : Path) (text : String) : Except Failure Package :=
  match Manifest.read text with
  | .error fault => .error (.package (metadataPath dir) (.malformed fault))
  | .ok manifest =>
    let svelte := match manifest.svelte with
      | some (.string text) => some text
      | _ => none
    .ok ⟨dir, manifest.name, svelte, manifest.exports⟩

/-- The file that holds the package's components. -/
def entry (p : Package) : Option Path :=
  p.svelte.map p.dir.join

/-- A pattern stands for the keys that begin as it does before its first star and end as it does
after it; without a star it stands for itself. -/
def patternMatches (pattern key : String) : Bool :=
  match breakAt (fun s => s.head? = some '*') pattern.toList with
  | none => pattern = key
  | some (before, rest) =>
    let key := key.toList
    let after := rest.drop 1
    before.length + after.length ≤ key.length && before.isPrefixOf key && after.isSuffixOf key

/-- Whether the exports let the metadata be read: they name it, and not with `null`, or one of
their patterns does. -/
def exportsMetadata (fields : Fields) : Bool :=
  match fields.find? metadataKey with
  | some target => target.found ≠ .null
  | none => fields.any fun field => field.2.found ≠ .null && patternMatches field.1 metadataKey

/-- Without exports everything can be read; exports that are no map from paths name the package
itself and nothing else. -/
def hidesMetadata (p : Package) : Bool :=
  match p.exports with
  | none => false
  | some (.object fields) =>
    !(fields.all fun field => field.1.toList.head? = some '.') || !exportsMetadata fields
  | some _ => true

end Package

end InlineComponents
