import InlineComponents.Plugin.Transform
import InlineComponents.Session.Resolution
import InlineComponents.SourceMap.Basic

namespace InlineComponents

/-- A failure with what was being done when it came. -/
structure HookFailure where
  context : String
  cause : Failure

def HookFailure.message (f : HookFailure) : String :=
  f.context ++ ": " ++ f.cause.fullMessage

/-- What a module is to the host. -/
inductive ModuleType where
  | js
  | css
  deriving DecidableEq, Repr

def ModuleType.name : ModuleType → String
  | .js => "js"
  | .css => "css"

/-- A transformed component as the host takes it. -/
structure TransformedModule where
  code : String
  map : Option SourceMap
  dependencies : List String

namespace Plugin

variable {σ : Type} [FileSystem σ]

/-- A result with what was being done, for the case that it is a failure. -/
def within {α : Type} (context : String) (result : Except Failure α) : Except HookFailure α :=
  result.mapError (HookFailure.mk context)

/-- What an earlier build has deleted is written again. -/
def onBuildStart (s : Session σ) : Except HookFailure Unit × Session σ :=
  let (result, s) := s.materializeAll
  ((within "Failed to materialize inline sub-components" result).map fun _ => (), s)

/-- The id that an import leads to: a stylesheet leads to itself, a package to its entry. -/
def onResolveId (specifier : String) (importer : Option String) (s : Session σ) :
    Except HookFailure (Option String) × Session σ :=
  if (s.asset? specifier).isSome then (.ok (some specifier), s)
  else
    let (result, s) := s.resolve specifier importer
    ((within ("Failed to resolve '" ++ specifier ++ "'") result).map fun
      | .entry path => some path.text
      | .defer => none, s)

/-- The stylesheet of that id. -/
def onLoad (id : String) (s : Session σ) : Option (String × ModuleType) :=
  (s.asset? id).map fun css => (css, .css)

/-- The compiler's source map; one that cannot be read is done without. -/
def readSourceMap (id : String) (map : Option String) (s : Session σ) :
    Option SourceMap × Session σ :=
  match map with
  | none => (none, s)
  | some text =>
    match SourceMap.read text with
    | some map => (some map, s)
    | none => (none, s.log (.sourceMapIgnored id))

def onTransform (p : Plugin) (code id : String) (s : Session σ) :
    Except HookFailure (Option TransformedModule) × Session σ :=
  match p.transform code id s with
  | (.error failure, s) =>
    (within ("Failed to transform Svelte component: " ++ id) (.error failure), s)
  | (.ok none, s) => (.ok none, s)
  | (.ok (some output), s) =>
    let (map, s) := readSourceMap id output.map s
    (.ok (some ⟨output.code, map, output.dependencies⟩), s)

/-- Hidden packages are reported when the bundle is made. -/
def onGenerateBundle (s : Session σ) : Session σ :=
  s.flushHidden.2

end Plugin

end InlineComponents
