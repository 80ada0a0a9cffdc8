namespace InlineComponents

/-- Where a component is in its transform. -/
inductive Stage where
  | idle
  | extracting
  | rewriting
  | compiling
  | emitting
  | done
  | aborted
  deriving DecidableEq, Repr

namespace Stage

def all : List Stage :=
  [.idle, .extracting, .rewriting, .compiling, .emitting, .done, .aborted]

def name : Stage → String
  | .idle => "idle"
  | .extracting => "extracting"
  | .rewriting => "rewriting"
  | .compiling => "compiling"
  | .emitting => "emitting"
  | .done => "done"
  | .aborted => "aborted"

/-- The only stage that may follow when nothing fails. -/
def next : Stage → Option Stage
  | .idle => some .extracting
  | .extracting => some .rewriting
  | .rewriting => some .compiling
  | .compiling => some .emitting
  | .emitting => some .done
  | .done | .aborted => none

def isTerminal : Stage → Bool
  | .done | .aborted => true
  | _ => false

theorem isTerminal_iff_next {s : Stage} : s.isTerminal = true ↔ s.next = none := by
  cases s <;> decide

end Stage

end InlineComponents
