import InlineComponents.Path.Basic

namespace InlineComponents

def PathPart.rank : PathPart → Nat
  | .root => 0
  | .here => 1
  | .up => 2
  | .name _ => 3

/-- The root before dots, dots before names, names by their characters. -/
def PathPart.le (a b : PathPart) : Bool :=
  match a, b with
  | .name s, .name t => s ≤ t
  | a, b => a.rank ≤ b.rank

namespace Path

/-- Lists of components in order, a list before all that it begins. -/
def partsLe : List PathPart → List PathPart → Bool
  | [], _ => true
  | _ :: _, [] => false
  | a :: as, b :: bs => if a = b then partsLe as bs else a.le b

/-- Paths in the order of their components, a path before all that lie below it. -/
def sorted (paths : List Path) : List Path :=
  let keyed := paths.map fun path => (path.parts, path)
  (keyed.mergeSort fun a b => partsLe a.1 b.1).map Prod.snd

end Path

end InlineComponents
