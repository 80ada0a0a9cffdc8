import InlineComponents.FileSystem.Basic
import InlineComponents.Json.Fault
import InlineComponents.Json.Writer
import InlineComponents.Text.Utf8

namespace InlineComponents

/-- Why a package's metadata cannot be used. -/
inductive PackageFault where
  | unknownSize (cause : FileError)
  | tooLarge
  | unreadable (cause : FileError)
  | notUtf8 (fault : Utf8Fault)
  | malformed (fault : JsonFault)
  deriving DecidableEq, Repr

def PackageFault.message : PackageFault → String
  | .unknownSize cause => "Cannot read package.json metadata: " ++ cause.message
  | .tooLarge => "package.json exceeds maximum size of 10MB"
  | .unreadable cause => "Failed to read package.json: " ++ cause.message
  | .notUtf8 fault => "package.json contains invalid UTF-8: " ++ fault.message
  | .malformed fault => "Invalid package.json format: " ++ fault.message

/-- Why options cannot be read. -/
inductive OptionsFault where
  | notAnObject (found : Json)
  | shape (fault : ShapeFault)
  deriving Repr

def OptionsFault.message : OptionsFault → String
  | .notAnObject found => "expected an object, found " ++ found.compact
  | .shape fault => fault.message

/-- Why the work on one component, or on one import, is given up. -/
inductive Failure where
  | invalidName (file : Path) (name : String)
  | duplicateName (file : Path) (name : String)
  | unclosedBlock (file : Path) (name : String) (offset : Nat)
  | sourceTooLarge (file : Path) (size limit : Nat)
  | malformedScript (file : Path)
  | artifactNotWritten (path : Path) (cause : FileError)
  | package (path : Path) (fault : PackageFault)
  | notCompiled (file : Path) (reason : String)
  | notPreprocessed (file : Path) (reason : String)
  | invalidOptions (fault : OptionsFault)
  deriving Repr

namespace Failure

def message : Failure → String
  | .invalidName file name => "Invalid sub-component name '" ++ name ++ "' in " ++ file.text
  | .duplicateName file name =>
    "Sub-component '" ++ name ++ "' is declared more than once in " ++ file.text
  | .unclosedBlock file name offset =>
    "Sub-component '" ++ name ++ "' in " ++ file.text ++ " is never closed (opened at byte " ++
      toString offset ++ ")"
  | .sourceTooLarge file size limit =>
    file.text ++ " is too large: " ++ toString size ++ " bytes (max: " ++ toString limit ++
      " bytes)"
  | .malformedScript file =>
    "Cannot inject sub-component imports into " ++ file.text ++ ": malformed <script> tag"
  | .artifactNotWritten path _ => "Failed to write sub-component artifact " ++ path.text
  | .package path fault =>
    "Failed to read package metadata " ++ path.text ++ ": " ++ fault.message
  | .notCompiled file reason => "Failed to compile " ++ file.text ++ ": " ++ reason
  | .notPreprocessed file reason => "Failed to preprocess " ++ file.text ++ ": " ++ reason
  | .invalidOptions fault => "Invalid plugin options: " ++ fault.message

/-- The name under which a failure is documented. -/
def code : Failure → String
  | .invalidName .. => "fob::svelte_inline::invalid_name"
  | .duplicateName .. => "fob::svelte_inline::duplicate_name"
  | .unclosedBlock .. => "fob::svelte_inline::unclosed_block"
  | .sourceTooLarge .. => "fob::svelte_inline::source_too_large"
  | .malformedScript .. => "fob::svelte_inline::no_config_block"
  | .artifactNotWritten .. => "fob::svelte_inline::artifact_write_failed"
  | .package .. => "fob::svelte_inline::package_metadata"
  | .notCompiled .. => "fob::svelte_inline::compile"
  | .notPreprocessed .. => "fob::svelte_inline::preprocess"
  | .invalidOptions .. => "fob::svelte_inline::invalid_options"

/-- What the user can do about it. -/
def help : Failure → Option String
  | .invalidName .. =>
    some ("Sub-component names must start with an uppercase letter, contain only ASCII letters, " ++
      "digits or underscores, and must not contain '__'")
  | .duplicateName .. => some "Rename one of the blocks, or set `onDuplicate` to \"lastWins\""
  | .unclosedBlock .. => some "Add a closing </template> tag"
  | .malformedScript .. => some "Check that every <script> opening tag is closed with '>'"
  | .artifactNotWritten .. =>
    some "Check disk space and write permissions for the component's directory"
  | .invalidOptions .. => some "Check the option names and value types in your configuration"
  | _ => none

/-- Whether a declared name is at fault. -/
def isNaming : Failure → Bool
  | .invalidName .. | .duplicateName .. => true
  | _ => false

/-- The message followed by that of its cause. -/
def fullMessage (failure : Failure) : String :=
  match failure with
  | .artifactNotWritten _ cause => failure.message ++ ": " ++ cause.message
  | failure => failure.message

end Failure

end InlineComponents
