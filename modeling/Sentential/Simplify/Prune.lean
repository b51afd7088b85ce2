import Sentential.Simplify.Laws

/-!
# Pruning on the binary tree

Pruning tests the two simplified operands of each connective against each
other, from the leaves up, and repeats until nothing changes. Each change makes
the formula smaller in every gauge, which is why both the single visit and its
repetition come to an end.
-/

set_option autoImplicit false

namespace Sentential.Simplify.Prune

open Formula

/-- What a connective with simplified operands becomes, and whether to visit it again. -/
inductive Step where
  | done (f : Formula)
  | again (f : Formula)
  deriving DecidableEq, Repr

/-- Leaves out of a chain of `op` every operand that `term` absorbs, if there is any. -/
def absorbInto (op : Connective) (term chain : Formula) : Option Formula :=
  if chain.connective? = some op then
    let operands := chain.terms op
    let kept := operands.filter (fun t => verdict op term t != .dropRight)
    if kept.length = operands.length then none
    else match op.join? kept with
    | some rest => some (.bin op term rest)
    | none => some term
  else none

/-- One look at a connective whose operands are simplified. -/
def reduce (op : Connective) (left right : Formula) : Step :=
  if left = .const op.neutral then .done right
  else if right = .const op.neutral then .done left
  else if left = .const op.absorbing ∨ right = .const op.absorbing then
    .done (.const op.absorbing)
  else match verdict op left right with
  | .dropRight => .done left
  | .dropLeft => .done right
  | .collapse => .done (.const op.absorbing)
  | .replaceRight f => .again (.bin op left f)
  | .replaceLeft f => .again (.bin op f right)
  | .keep =>
    match absorbInto op left right with
    | some f => .again f
    | none =>
      match absorbInto op right left with
      | some f => .again f
      | none => .done (.bin op left right)

theorem absorbInto_size_le {op : Connective} {term chain f : Formula}
    (h : absorbInto op term chain = some f) (m : Gauge) :
    m.size f < m.bin + m.size term + m.size chain := by
  unfold absorbInto at h
  have := m.bin_pos
  split at h
  · dsimp only at h
    split at h
    · cases h
    · rename_i lost
      have shorter := m.total_filter_add_bin_le _ _ lost
      have := m.total_terms op chain
      split at h
      · rename_i rest joined
        cases h
        have := m.size_join? joined
        simp only [Gauge.size]
        omega
      · cases h
        omega
  · cases h

theorem reduce_again_smaller {op : Connective} {left right f : Formula}
    (h : reduce op left right = .again f) : f.Smaller (.bin op left right) := by
  intro m
  unfold reduce at h
  repeat' split at h
  all_goals cases h
  · have := verdict_replaceRight_smaller (by assumption) m
    simp only [Gauge.size]
    omega
  · have := verdict_replaceLeft_smaller (by assumption) m
    simp only [Gauge.size]
    omega
  · have := absorbInto_size_le (by assumption) m
    simp only [Gauge.size]
    omega
  · have := absorbInto_size_le (by assumption) m
    simp only [Gauge.size]
    omega

theorem reduce_done_within {op : Connective} {left right f : Formula}
    (h : reduce op left right = .done f) : f.Within (.bin op left right) := by
  unfold reduce at h
  repeat' split at h
  all_goals cases h
  · exact .inr (smaller_right _ _ _)
  · exact .inr (smaller_left _ _ _)
  · rename_i absorbed
    right
    rcases absorbed with rfl | rfl
    · exact smaller_left _ _ _
    · exact smaller_right _ _ _
  · exact .inr (smaller_left _ _ _)
  · exact .inr (smaller_right _ _ _)
  · rename_i collapsed
    right
    intro m
    have := m.const_le_bin
    have := m.neg_pos
    rcases negated_of_complementary (complementary_of_verdict_collapse collapsed) with
      ⟨inner, rfl⟩ | ⟨inner, rfl⟩ <;> simp only [Gauge.size] <;> omega
  · exact .refl _

/-- One visit, with the reason why its result can be visited again. -/
def visitWithin : (f : Formula) → { g : Formula // g.Within f }
  | .const value => ⟨.const value, .refl _⟩
  | .var name => ⟨.var name, .refl _⟩
  | .neg inner =>
    let ⟨g, visited⟩ := visitWithin inner
    ⟨g.foldedNeg, (foldedNeg_within g).trans visited.neg⟩
  | .bin op left right =>
    let ⟨l, visitedLeft⟩ := visitWithin left
    let ⟨r, visitedRight⟩ := visitWithin right
    have visited := visitedLeft.bin op visitedRight
    match h : reduce op l r with
    | .done g => ⟨g, (reduce_done_within h).trans visited⟩
    | .again g =>
      have smaller := (reduce_again_smaller h).trans_within visited
      let ⟨result, again⟩ := visitWithin g
      ⟨result, .inr (again.trans_smaller smaller)⟩
termination_by f => f.size
decreasing_by
  · simp [Gauge.size]
  · exact smaller_left op left right Gauge.nodes
  · exact smaller_right op left right Gauge.nodes
  · exact smaller Gauge.nodes

/-- One visit of every connective, from the leaves up. -/
def visit (f : Formula) : Formula :=
  (visitWithin f).val

theorem visit_within (f : Formula) : (visit f).Within f :=
  (visitWithin f).property

@[simp] theorem visit_const (value : Bool) : visit (.const value) = .const value := by
  rw [visit, visitWithin]

@[simp] theorem visit_var (name : String) : visit (.var name) = .var name := by
  rw [visit, visitWithin]

@[simp] theorem visit_neg (f : Formula) : visit (.neg f) = (visit f).foldedNeg := by
  rw [visit, visitWithin]
  rfl

theorem visit_bin (op : Connective) (left right : Formula) :
    visit (.bin op left right) =
      match reduce op (visit left) (visit right) with
      | .done g => g
      | .again g => visit g := by
  rw [visit, visitWithin]
  simp only [visit]
  split <;> rename_i g reduced
  · show g = _
    rw [reduced]
  · show (visitWithin g).val = _
    rw [reduced]

/-- Visits a formula until a visit changes nothing. -/
def run (f : Formula) : Formula :=
  if visit f = f then f else run (visit f)
termination_by f.size
decreasing_by exact ((visit_within f).resolve_left (by assumption)) Gauge.nodes

end Sentential.Simplify.Prune
