import Sentential.Formula.Negations
import Sentential.Simplify.Prune
import Sentential.Simplify.Repeats

/-!
# Rounds of simplification

A round runs a pruner given by the caller and then the passes of this library
in a fixed order. Rounds are repeated as long as the printed formula gets
shorter. The result is the shortest formula that was seen, which is kept apart
from the formula that the next round takes. The keys of leaves, on which the
groups of repeated parts depend, are a parameter of every round.
-/

set_option autoImplicit false

namespace Sentential.Simplify.Shorten

open Formula

/-- One round. Negations are pushed to the leaves for compacting and pulled out of chains after
it. -/
def round (leafKey : Formula → UInt64) (pruner : Formula → Logged Formula) (f : Formula) :
    Logged Formula := do
  let pruned ← pruner f
  let repeated ← Repeats.runWith leafKey (Compact.run pruned.pushNegations)
  Repeats.runWith leafKey repeated.pullNegations

/-- The formula with the shorter text, the first one if the lengths are equal. -/
def shorter (f g : Formula) : Formula :=
  if g.textLength < f.textLength then g else f

/-- Rounds from number `number` on, as long as each shortens the text of `current`. -/
def track (leafKey : Formula → UInt64) (pruner : Formula → Logged Formula) (number : Nat)
    (shortest current : Formula) : Logged Formula :=
  let next := round leafKey pruner current
  let notices := next.notices ++ [.round number current.textLength next.value.textLength]
  let best := shorter shortest next.value
  if next.value.textLength < current.textLength then
    let result := track leafKey pruner (number + 1) best next.value
    ⟨result.value, notices ++ result.notices⟩
  else ⟨best, notices⟩
termination_by current.textLength

/-- Rounds from number `number` on, none of them executed yet. -/
def rounds (leafKey : Formula → UInt64) (pruner : Formula → Logged Formula) (number : Nat)
    (f : Formula) : Logged Formula :=
  track leafKey pruner number f f

/-- Rounds of simplification that start with the given pruner. -/
def run (leafKey : Formula → UInt64) (pruner : Formula → Logged Formula) (f : Formula) :
    Logged Formula :=
  rounds leafKey pruner 1 f

end Sentential.Simplify.Shorten
