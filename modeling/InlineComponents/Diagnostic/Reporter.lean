import InlineComponents.Diagnostic.Basic

namespace InlineComponents

/-- What becomes of a diagnostic: it is handed to the user's handler, or reported by default. -/
inductive Report where
  | handled (diagnostic : Diagnostic)
  | shown (diagnostic : Diagnostic)
  deriving DecidableEq, Repr

/-- Says of each diagnostic it is handed whether it is to be reported by default as well. -/
abbrev WarningHandler : Type := Diagnostic → Bool

/-- How diagnostics are reported. -/
structure Reporter where
  emitCss : Bool
  handler : Option WarningHandler

namespace Reporter

/-- Selectors without use matter only when the stylesheet is a file of its own. -/
def forwards (r : Reporter) (d : Diagnostic) : Bool :=
  r.emitCss || !d.isUnusedSelector

def report (r : Reporter) (d : Diagnostic) : List Report :=
  match r.handler with
  | none => [.shown d]
  | some passesOn => if passesOn d then [.handled d, .shown d] else [.handled d]

def forwarded (r : Reporter) (ds : List Diagnostic) : List Diagnostic :=
  ds.filter r.forwards

def reportAll (r : Reporter) (ds : List Diagnostic) : List Report :=
  (r.forwarded ds).flatMap r.report

def text (r : Reporter) : String :=
  "DiagnosticReporter \x7b emit_css: " ++ toString r.emitCss ++ ", handler: " ++
    (if r.handler.isSome then "Some(\"<handler>\")" else "None") ++ " \x7d"

end Reporter

end InlineComponents
