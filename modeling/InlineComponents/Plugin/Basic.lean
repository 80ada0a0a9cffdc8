import InlineComponents.Compile
import InlineComponents.Diagnostic.Reporter
import InlineComponents.Options.Basic

namespace InlineComponents

/-- The occasions on which the host calls the plugin. -/
inductive Hook where
  | buildStart
  | resolveId
  | load
  | transform
  | moduleParsed
  | generateBundle
  deriving DecidableEq, Repr

def Hook.name : Hook → String
  | .buildStart => "BuildStart"
  | .resolveId => "ResolveId"
  | .load => "Load"
  | .transform => "Transform"
  | .moduleParsed => "ModuleParsed"
  | .generateBundle => "GenerateBundle"

/-- The user's decisions, and the tools that the host provides. -/
structure Plugin where
  options : Options
  handler : Option WarningHandler
  preprocessor : Option Preprocessor
  compiler : Compiler

namespace Plugin

def name : String := "fob-svelte-inline"

def hooks : List Hook :=
  [.buildStart, .resolveId, .load, .transform, .moduleParsed, .generateBundle]

def reporter (p : Plugin) : Reporter :=
  ⟨p.options.emitCss, p.handler⟩

end Plugin

/-- A component as the host hands it over; its extension has the dot in front, if there is one. -/
structure SourceUnit where
  path : Path
  text : String
  extension : String
  deriving DecidableEq, Repr

def SourceUnit.ofId (id text : String) : SourceUnit :=
  ⟨⟨id⟩, text, ((Path.extension ⟨id⟩).map ("." ++ ·)).getD ""⟩

end InlineComponents
