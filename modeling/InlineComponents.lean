import InlineComponents.Bisection
import InlineComponents.Compile
import InlineComponents.Diagnostic.Basic
import InlineComponents.Diagnostic.Json
import InlineComponents.Diagnostic.Reporter
import InlineComponents.Event
import InlineComponents.Extraction
import InlineComponents.Failure
import InlineComponents.FileSystem.Basic
import InlineComponents.FileSystem.Faults
import InlineComponents.FileSystem.Memory
import InlineComponents.FileSystem.Tree.Basic
import InlineComponents.FileSystem.Tree.Files
import InlineComponents.FileSystem.Tree.Target
import InlineComponents.Imports
import InlineComponents.Json.Basic
import InlineComponents.Json.Fault
import InlineComponents.Json.Number
import InlineComponents.Json.Numeral
import InlineComponents.Json.Reader
import InlineComponents.Json.Record
import InlineComponents.Json.Scalar
import InlineComponents.Json.Shape
import InlineComponents.Json.Skip
import InlineComponents.Json.Writer
import InlineComponents.LogLevel
import InlineComponents.Markup.Attribute
import InlineComponents.Markup.Braces
import InlineComponents.Markup.Element
import InlineComponents.Markup.Tag
import InlineComponents.Markup.Token
import InlineComponents.Markup.Tokens
import InlineComponents.Naming
import InlineComponents.Options.Basic
import InlineComponents.Options.Json
import InlineComponents.Options.Text
import InlineComponents.Outline
import InlineComponents.Package.Descriptor
import InlineComponents.Package.Lookup
import InlineComponents.Package.Reader
import InlineComponents.Path.Ancestors
import InlineComponents.Path.Basic
import InlineComponents.Path.Clean
import InlineComponents.Path.FileName
import InlineComponents.Path.Order
import InlineComponents.Path.Tidy
import InlineComponents.Piece
import InlineComponents.Plugin.Basic
import InlineComponents.Plugin.Hooks
import InlineComponents.Plugin.Transform
import InlineComponents.Plugin.Work
import InlineComponents.Proofs.Components
import InlineComponents.Proofs.Nesting
import InlineComponents.Proofs.Scan
import InlineComponents.Proofs.Segments
import InlineComponents.Proofs.Slices
import InlineComponents.Session.Artifacts
import InlineComponents.Session.Basic
import InlineComponents.Session.Resolution
import InlineComponents.SourceMap.Basic
import InlineComponents.SourceMap.Mappings
import InlineComponents.Specifier
import InlineComponents.Stage
import InlineComponents.SubComponent
import InlineComponents.Table
import InlineComponents.Text.Blank
import InlineComponents.Text.CaseClass
import InlineComponents.Text.CharClass
import InlineComponents.Text.Cut
import InlineComponents.Text.LowerCase
import InlineComponents.Text.Quoted
import InlineComponents.Text.Shortest
import InlineComponents.Text.Utf8
import InlineComponents.Proofs.Decomposition
import InlineComponents.Proofs.Reading
import InlineComponents.Proofs.Fragments
import InlineComponents.Proofs.Rendering
import InlineComponents.Proofs.PathParts
import InlineComponents.Proofs.NormalPaths
import InlineComponents.Proofs.ArtifactPaths
import InlineComponents.Proofs.Contents
import InlineComponents.Proofs.Artifacts
import InlineComponents.Proofs.Publication
import InlineComponents.Proofs.Transforms
import InlineComponents.Proofs.Writing
import InlineComponents.Proofs.Dropping
import InlineComponents.Proofs.Extractions
import InlineComponents.Proofs.Refinement
import InlineComponents.Proofs.TagReading
import InlineComponents.Proofs.Documents
import InlineComponents.Proofs.OpenElements
import InlineComponents.Proofs.ScriptChoice
import InlineComponents.Proofs.NestedScripts
import InlineComponents.Proofs.ArtifactNames
import InlineComponents.Proofs.NamingInverse
import InlineComponents.Proofs.Registration
import InlineComponents.Proofs.CompilerCalls
import InlineComponents.Proofs.Holding
import InlineComponents.Proofs.Compilation
import InlineComponents.Proofs.Uptakes
import InlineComponents.Proofs.Leftovers
import InlineComponents.Proofs.NestedArtifacts
import InlineComponents.Proofs.Rereading
import InlineComponents.Proofs.Bodies
import InlineComponents.Proofs.BracedBodies
import InlineComponents.Proofs.Generations
import InlineComponents.Proofs.Locality
import InlineComponents.Proofs.Commutation
import InlineComponents.Proofs.ScriptLiterals
import InlineComponents.Proofs.Specifiers
import InlineComponents.Proofs.Carrying
import InlineComponents.Proofs.Watching
import InlineComponents.Proofs.Deeds
import InlineComponents.Proofs.Deletions
import InlineComponents.Proofs.Reentry
import InlineComponents.Proofs.JsonStrings
import InlineComponents.Proofs.Emission
import InlineComponents.Proofs.StylesheetIds
import InlineComponents.Proofs.Stylesheets
import InlineComponents.Proofs.Loading
import InlineComponents.Proofs.Milestones
import InlineComponents.Proofs.Abandonment
import InlineComponents.Proofs.PackageSearch
import InlineComponents.Proofs.Restoration
import InlineComponents.Proofs.HiddenPackages
import InlineComponents.Proofs.Resolutions
import InlineComponents.Proofs.Insertion
import InlineComponents.Proofs.Refusals
import InlineComponents.Proofs.DuplicateNames
import InlineComponents.Proofs.WrittenAttributes
import InlineComponents.Proofs.ModuleScripts
import InlineComponents.Proofs.Exchange
import InlineComponents.Proofs.ExpressionTokens
import InlineComponents.Proofs.CommentedExpressions
import InlineComponents.Proofs.AttributeLookup
import InlineComponents.Proofs.PackageSpecifiers
import InlineComponents.Proofs.NestedPaths
import InlineComponents.Proofs.MemoryFiles
import InlineComponents.Proofs.FirstRefusal
import InlineComponents.Proofs.TreeNodes
import InlineComponents.Proofs.TreeWrites
import InlineComponents.Proofs.RecordFields
import InlineComponents.Proofs.DiagnosticSpellings
import InlineComponents.Proofs.OptionKeys
import InlineComponents.Proofs.SkippedValues
import InlineComponents.Proofs.ManifestFields
import InlineComponents.Proofs.ExportedMetadata
import InlineComponents.Proofs.Offsets.Basic
import InlineComponents.Proofs.Offsets.Bytes
import InlineComponents.Proofs.Offsets.Expressions
import InlineComponents.Proofs.Offsets.Tags
import InlineComponents.Proofs.Offsets.RawElements
import InlineComponents.Proofs.Offsets.Attributes
import InlineComponents.Proofs.Offsets.Templates
import InlineComponents.Proofs.Offsets.Blocks
import InlineComponents.Proofs.Offsets.Extraction
import InlineComponents.Proofs.Offsets.Scripts
import InlineComponents.Proofs.Offsets.Injection
import InlineComponents.Proofs.Offsets.Safety
