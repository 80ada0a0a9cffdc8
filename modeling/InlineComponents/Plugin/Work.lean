import InlineComponents.Failure
import InlineComponents.Session.Basic

namespace InlineComponents

/-- A failure, and the stage it came in. -/
structure Halt where
  stage : Stage
  failure : Failure

/-- A part of a transform. -/
abbrev Work (σ α : Type) : Type := ExceptT Halt (StateM (Session σ)) α

namespace Work

variable {σ α : Type}

/-- A result that may be a failure in a stage. -/
def settle (stage : Stage) (result : Except Failure α) : Work σ α :=
  ExceptT.mk (pure (result.mapError (Halt.mk stage)))

/-- What is done with the session in a stage. -/
def perform (stage : Stage) (act : Session σ → Except Failure α × Session σ) : Work σ α :=
  ExceptT.mk fun s =>
    let (result, s) := act s
    (result.mapError (Halt.mk stage), s)

/-- What is done with the session without failing. -/
def change (act : Session σ → Session σ) : Work σ Unit :=
  modify act

def enter (id : String) (before after : Stage) : Work σ Unit :=
  change fun s => s.log (.stageEntered id before after)

end Work

end InlineComponents
