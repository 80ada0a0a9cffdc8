import InlineComponents.Extraction
import InlineComponents.Imports
import InlineComponents.Json.Writer
import InlineComponents.Plugin.Basic
import InlineComponents.Plugin.Work
import InlineComponents.Session.Artifacts

namespace InlineComponents

/-- What a transform gives the host. -/
structure TransformOutput where
  code : String
  map : Option String
  dependencies : List String
  deriving DecidableEq, Repr

/-- The texts of both lists, those of the second unless they are there already. -/
def mergeTexts (first second : List String) : List String :=
  second.foldl (fun all text => if all.contains text then all else all ++ [text]) first

namespace Session

variable {σ : Type}

/-- What becomes of a diagnostic, told. -/
def tellReport (s : Session σ) : Report → Session σ
  | .handled d => s.tell (.warningHandled d)
  | .shown d => s.logAll (Event.ofDiagnostic d)

end Session

namespace Plugin

variable {σ : Type} [FileSystem σ]

/-- The source as the preprocessor leaves it, if there is one. -/
def prepare (p : Plugin) (unit : SourceUnit) (id : String) : Except Failure Preprocessed :=
  match p.preprocessor with
  | none => .ok ⟨unit.text, []⟩
  | some preprocess => (preprocess unit.text id).mapError (.notPreprocessed unit.path)

/-- The source told apart, its components published and those it no longer declares dropped. -/
def separate (p : Plugin) (path : Path) (source : String) : Work σ Extraction := do
  let extraction ← Work.perform .extracting fun s =>
    let (events, result) := extract source path p.options.onDuplicate
    (result, s.logAll events)
  Work.perform .extracting fun s => s.publishAll extraction.components
  Work.change fun s => (s.retain path extraction.components).2
  pure extraction

/-- A component's source as the compiler is to see it: its sub-components published, and imported
where they were declared. What the preprocessor read comes with it. -/
def assemble (p : Plugin) (unit : SourceUnit) (id : String) : Work σ Preprocessed := do
  let prepared ← Work.settle .idle (p.prepare unit id)
  Work.enter id .idle .extracting
  let extraction ← p.separate unit.path prepared.code
  Work.enter id .extracting .rewriting
  let code ← Work.settle .rewriting
    (injectImports extraction.residual unit.path extraction.imports)
  Work.enter id .rewriting .compiling
  pure ⟨code, prepared.dependencies⟩

/-- An assembled source compiled. -/
def compile (p : Plugin) (path : Path) (id source : String) : Work σ CompileOutput := do
  let options := CompileOptions.ofUser id p.options.compilerOptions p.options.emitCss
  Work.change fun s => s.tell (.compileAsked source options)
  Work.settle .compiling ((p.compiler source options).mapError (.notCompiled path))

/-- The diagnostics of a compilation reported; those without a file are about the component. -/
def report (p : Plugin) (id : String) (warnings : List Diagnostic) : Work σ Unit :=
  Work.change fun s =>
    (p.reporter.reportAll (warnings.map fun d => d.orIn id)).foldl Session.tellReport s

/-- The stylesheet kept as a file of its own. -/
def emittedStylesheet (p : Plugin) (output : CompileOutput) : Option String :=
  if p.options.emitCss then stylesheet output.css else none

/-- The compiled code, importing its stylesheet if that is a file of its own. -/
def emit (p : Plugin) (id : String) (output : CompileOutput) : Work σ String := do
  match p.emittedStylesheet output with
  | none => pure output.js
  | some css =>
    Work.change fun s => s.addAsset (stylesheetId id) css
    pure (output.js ++ "\nimport " ++ jsonString (stylesheetId id) ++ ";")

/-- One component taken through all stages. -/
def run (p : Plugin) (unit : SourceUnit) (id : String) : Work σ TransformOutput := do
  let assembled ← p.assemble unit id
  let output ← p.compile unit.path id assembled.code
  p.report id output.warnings
  Work.enter id .compiling .emitting
  let code ← p.emit id output
  Work.enter id .emitting .done
  pure ⟨code, output.map, mergeTexts assembled.dependencies output.dependencies⟩

/-- One component transformed, if its id is to be. -/
def transform (p : Plugin) (code id : String) (s : Session σ) :
    Except Failure (Option TransformOutput) × Session σ :=
  if p.options.shouldTransform id then
    match (p.run (.ofId id code) id).run s with
    | (.ok output, s) => (.ok (some output), s)
    | (.error halt, s) => (.error halt.failure, s.log (.transformAborted id halt.stage))
  else (.ok none, s)

/-- An artifact released as soon as the host has read it. -/
def moduleParsed (p : Plugin) (id : String) (s : Session σ) : Bool × Session σ :=
  if isArtifactId id p.options.extensions then s.release ⟨id⟩ else (false, s)

end Plugin

end InlineComponents
