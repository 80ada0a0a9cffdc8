import InlineComponents.Package.Lookup
import InlineComponents.Session.Basic
import InlineComponents.Specifier

namespace InlineComponents

/-- What an import leads to: a component entry, or whatever the host makes of it. -/
inductive Resolution where
  | entry (path : Path)
  | defer
  deriving DecidableEq, Repr

/-- The package that is asked for, by name and subpath, and the directory it is asked for from. -/
structure PackageRequest where
  package : String
  subpath : String
  dir : Path
  importer : String

/-- The request of an import that names a package, from an importer that is a file. -/
def packageRequest? (specifier : String) (importer : Option String) : Option PackageRequest := do
  guard (isBare specifier)
  let importer ← importer
  guard (importer.toList.head? ≠ some '\x00')
  let (package, subpath) ← splitSpecifier specifier
  let dir ← Path.parent ⟨importer⟩
  pure ⟨package, subpath, dir, importer⟩

namespace Session

variable {σ : Type} [FileSystem σ]

/-- What is found of the package that a specifier asks for. -/
def settle (s : Session σ) (specifier : String) (request : PackageRequest) :
    Lookup → Except Failure Resolution × Session σ
  | .found package =>
    match package.entry with
    | some entry =>
      if request.subpath = "" then
        (.ok (.entry entry.clean), s.log (.entryResolved specifier entry.clean))
      else (.ok .defer, s)
    | none => (.ok .defer, s)
  | .missing => (.ok .defer, s.log (.packageMissing specifier request.importer))
  | .hidden name => (.ok .defer, s.noteHidden name)
  | .failed failure => (.error failure, s)

/-- An import resolved: the root of a package that names a component entry leads to that entry,
and all else is the host's affair. -/
def resolve (s : Session σ) (specifier : String) (importer : Option String) :
    Except Failure Resolution × Session σ :=
  match packageRequest? specifier importer with
  | none => (.ok .defer, s)
  | some request =>
    if (s.asset? specifier).isSome then (.ok .defer, s)
    else s.settle specifier request (Package.lookUp s.files request.package request.dir)

/-- The advice about the hidden packages met since the last time, once. -/
def flushHidden (s : Session σ) : Option String × Session σ :=
  let (packages, s) := s.takeHidden
  match hiddenPackagesWarning packages with
  | none => (none, s)
  | some warning => (some warning, s.log (.packagesHidden warning))

end Session

end InlineComponents
