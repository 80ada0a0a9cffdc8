namespace InlineComponents

inductive Severity where
  | warning
  | error
  deriving DecidableEq, Repr

/-- A place in a compiled source: its line from one, its column from zero, and its offset. -/
structure Position where
  line : UInt32
  column : UInt32
  character : UInt32
  deriving DecidableEq, Repr

/-- What the compiler has to say about a source, with the place and an excerpt if it gave them. -/
structure Diagnostic where
  severity : Severity
  code : String
  message : String
  filename : Option String
  start : Option Position
  stop : Option Position
  frame : Option String
  deriving DecidableEq, Repr

namespace Diagnostic

/-- A diagnostic that says nothing about its place. -/
def bare (severity : Severity) (code message : String) : Diagnostic :=
  ⟨severity, code, message, none, none, none, none⟩

def withFilename (d : Diagnostic) (filename : String) : Diagnostic :=
  { d with filename := some filename }

def withSpan (d : Diagnostic) (start stop : Position) : Diagnostic :=
  { d with start := some start, stop := some stop }

def withFrame (d : Diagnostic) (frame : String) : Diagnostic :=
  { d with frame := some frame }

/-- The diagnostic made again from its bare form; a span needs both its ends. -/
def rebuilt (d : Diagnostic) : Diagnostic :=
  let named := d.filename.elim (bare d.severity d.code d.message)
    (bare d.severity d.code d.message).withFilename
  let placed := match d.start, d.stop with
    | some start, some stop => named.withSpan start stop
    | _, _ => named
  d.frame.elim placed placed.withFrame

/-- The codes for a style selector that matches nothing, in the two spellings in use. -/
def unusedSelectorCodes : List String :=
  ["css-unused-selector", "css_unused_selector"]

def isUnusedSelector (d : Diagnostic) : Bool :=
  d.code ∈ unusedSelectorCodes

/-- The file and the place in front, as far as they are known; a place needs a file. -/
def text (d : Diagnostic) : String :=
  let said := d.message ++ " (" ++ d.code ++ ")"
  match d.filename, d.start with
  | some filename, some start =>
    filename ++ ":" ++ toString start.line ++ ":" ++ toString start.column ++ " " ++ said
  | some filename, none => filename ++ " " ++ said
  | none, _ => said

/-- A diagnostic without a file belongs to the file that was compiled. -/
def orIn (d : Diagnostic) (filename : String) : Diagnostic :=
  match d.filename with
  | some _ => d
  | none => d.withFilename filename

theorem rebuilt_eq_self_iff {d : Diagnostic} :
    d.rebuilt = d ↔ (d.start.isSome ↔ d.stop.isSome) := by
  obtain ⟨_, _, _, filename, start, stop, frame⟩ := d
  cases filename <;> cases start <;> cases stop <;> cases frame <;>
    simp [rebuilt, bare, withFilename, withSpan, withFrame]

end Diagnostic

end InlineComponents
