import InlineComponents.Diagnostic.Reporter
import InlineComponents.FileSystem.Basic
import InlineComponents.Json.Basic
import InlineComponents.LogLevel
import InlineComponents.Stage

namespace InlineComponents

/-- What is worth a line in the log. -/
inductive Event where
  | stageEntered (id : String) (before after : Stage)
  | transformAborted (id : String) (stage : Stage)
  | nameRepeated (file : Path) (name : String)
  | artifactPublished (path : Path)
  | artifactsMaterialized (count : Nat)
  | artifactReleased (path : Path)
  | artifactNotReleased (path : Path) (cause : FileError)
  | staleArtifactsDropped (parent : Path) (count : Nat)
  | entryResolved (specifier : String) (entry : Path)
  | packageMissing (specifier importer : String)
  | packagesHidden (warning : String)
  | optionUnrecognized (name : String)
  | diagnosticShown (diagnostic : Diagnostic)
  | frameShown (file frame : String)
  | sourceMapIgnored (id : String)
  deriving DecidableEq, Repr

namespace Event

/-- The least level at which the event is reported. -/
def level : Event → LogLevel
  | .stageEntered .. | .transformAborted .. | .entryResolved .. | .packageMissing .. => .trace
  | .nameRepeated .. | .artifactPublished .. | .artifactsMaterialized .. | .artifactReleased ..
  | .artifactNotReleased .. | .staleArtifactsDropped .. | .frameShown ..
  | .sourceMapIgnored .. => .debug
  | .packagesHidden .. | .optionUnrecognized .. => .warn
  | .diagnosticShown d =>
    match d.severity with
    | .warning => .warn
    | .error => .error

def message : Event → String
  | .stageEntered .. => "Stage transition"
  | .transformAborted .. => "Transform aborted"
  | .nameRepeated .. => "duplicate sub-component, keeping the later block"
  | .artifactPublished .. => "Published sub-component artifact"
  | .artifactsMaterialized .. => "Materialized sub-component artifacts"
  | .artifactReleased .. => "Released sub-component artifact"
  | .artifactNotReleased .. => "Failed to release sub-component artifact"
  | .staleArtifactsDropped .. => "Dropped stale sub-component artifacts"
  | .entryResolved .. => "Resolved svelte entry"
  | .packageMissing .. => "Package metadata not found, deferring"
  | .packagesHidden warning => warning
  | .optionUnrecognized name =>
    "Unrecognized option '" ++ name ++ "' for fob-svelte-inline, ignoring it"
  | .diagnosticShown d => d.message
  | .frameShown _ frame => "\n" ++ frame
  | .sourceMapIgnored .. => "Ignoring invalid compiler source map"

/-- What the event is about, by name. -/
def fields : Event → Fields
  | .stageEntered id before after =>
    [("id", .string id), ("from", .string before.name), ("to", .string after.name)]
  | .transformAborted id stage => [("id", .string id), ("from", .string stage.name)]
  | .nameRepeated file name => [("file", .string file.text), ("name", .string name)]
  | .artifactPublished path | .artifactReleased path => [("path", .string path.text)]
  | .artifactsMaterialized count => [("count", .ofNat count)]
  | .artifactNotReleased path cause =>
    [("path", .string path.text), ("error", .string cause.message)]
  | .staleArtifactsDropped parent count =>
    [("parent", .string parent.text), ("count", .ofNat count)]
  | .entryResolved specifier entry =>
    [("specifier", .string specifier), ("entry", .string entry.text)]
  | .packageMissing specifier importer =>
    [("specifier", .string specifier), ("importer", .string importer)]
  | .packagesHidden _ => []
  | .optionUnrecognized name => [("option", .string name)]
  | .diagnosticShown d =>
    [("code", .string d.code), ("file", .string (d.filename.getD "<unknown>"))]
  | .frameShown file _ => [("file", .string file)]
  | .sourceMapIgnored id => [("id", .string id)]

/-- The events of a diagnostic reported by default: what it says, then its excerpt. -/
def ofDiagnostic (d : Diagnostic) : List Event :=
  .diagnosticShown d ::
    d.frame.toList.map fun frame => .frameShown (d.filename.getD "<unknown>") frame

end Event

end InlineComponents
