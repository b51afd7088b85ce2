import Sentential.Simplify.Prune

/-!
# Pruning by instance

Formulas are shared and not copied. A visit to which no law applies hands back
the very formula that it was given, and visits are repeated until one does so:
the test is for the same formula, not for an equal one. A visit that built an
equal formula anew would be repeated without end. Here the visit is followed
with this difference kept. Whatever it hands back instead of the formula itself
is smaller in every gauge, so there is no such visit.
-/

set_option autoImplicit false

namespace Sentential.Simplify.Prune

open Formula

/-- Nothing applies to a connective with these operands. -/
def Settled (op : Connective) (left right : Formula) : Prop :=
  left.constant? = none ∧ right.constant? = none ∧ verdict op left right = .keep ∧
    absorbInto op left right = none ∧ absorbInto op right left = none

instance (op : Connective) (left right : Formula) : Decidable (Settled op left right) :=
  inferInstanceAs (Decidable (_ ∧ _))

/-- What a visit hands back: the very formula that it was given, or another one. -/
inductive Handed where
  | same
  | other (g : Formula)
  deriving DecidableEq, Repr

/-- The formula that is handed back in place of `f`. -/
def Handed.formula (f : Formula) : Handed → Formula
  | .same => f
  | .other g => g

/-- What a visit hands back after one look at a connective that something applies to. -/
def Step.visited : Step → Formula
  | .done g => g
  | .again g => visit g

/-- The negation of what was visited, where a double negation is removed and a constant is
flipped. It is built anew unless the operand is handed back as it was. -/
def Handed.neg (inner : Formula) (visited : Handed) : Handed :=
  match visited.formula inner with
  | .neg nested => .other nested
  | .const value => .other (.const (!value))
  | g => if visited = .same then .same else .other (.neg g)

/-- The connective over what was visited, which is built anew unless nothing applies to it and both
operands are handed back as they were. -/
def Handed.bin (op : Connective) (left right : Formula) (l r : Handed) : Handed :=
  if Settled op (l.formula left) (r.formula right) then
    if l = .same ∧ r = .same then .same
    else .other (.bin op (l.formula left) (r.formula right))
  else .other (reduce op (l.formula left) (r.formula right)).visited

/-- One visit of every connective, from the leaves up. -/
def handed : Formula → Handed
  | .const _ => .same
  | .var _ => .same
  | .neg inner => (handed inner).neg inner
  | .bin op left right => (handed left).bin op left right (handed right)

theorem constant?_eq_none_of_ne (op : Connective) (f : Formula) (hn : f ≠ .const op.neutral)
    (ha : f ≠ .const op.absorbing) : f.constant? = none := by
  cases f with
  | const value => cases op <;> cases value <;> simp_all [Connective.neutral, Connective.absorbing]
  | var => rfl
  | neg => rfl
  | bin => rfl

theorem ne_const_of_constant? {f : Formula} (h : f.constant? = none) (b : Bool) :
    f ≠ .const b := by
  rintro rfl
  cases h

theorem reduce_of_settled {op : Connective} {left right : Formula} (h : Settled op left right) :
    reduce op left right = .done (.bin op left right) := by
  obtain ⟨hl, hr, hv, ha, hb⟩ := h
  simp [reduce, ne_const_of_constant? hl, ne_const_of_constant? hr, hv, ha, hb]

/-- A look that leaves the connective over its operands has found nothing to apply. -/
theorem settled_of_reduce {op : Connective} {left right : Formula}
    (h : reduce op left right = .done (.bin op left right)) : Settled op left right := by
  unfold reduce at h
  repeat' split at h
  all_goals cases h
  rename_i hl hr ha _ hv _ hb _ hc
  rw [not_or] at ha
  exact ⟨constant?_eq_none_of_ne op left hl ha.1, constant?_eq_none_of_ne op right hr ha.2,
    hv, hb, hc⟩

/-- Whatever applies to a connective, the visit goes on to a smaller formula. -/
theorem visited_smaller {op : Connective} {left right : Formula} (h : ¬Settled op left right) :
    (reduce op left right).visited.Smaller (.bin op left right) := by
  cases hr : reduce op left right with
  | done g =>
    by_cases hg : g = .bin op left right
    · rw [hg] at hr
      exact absurd (settled_of_reduce hr) h
    · exact (reduce_done_within hr).resolve_left hg
  | again g => exact (visit_within g).trans_smaller (reduce_again_smaller hr)

/-- Anything but the formula itself is smaller. -/
def Handed.Shrinks (f : Formula) : Handed → Prop
  | .same => True
  | .other g => g.Smaller f

namespace Handed

theorem Shrinks.within {f : Formula} {h : Handed} (hs : h.Shrinks f) : (h.formula f).Within f := by
  cases h with
  | same => exact .refl f
  | other g => exact .inr hs

theorem Shrinks.same_of_formula {f : Formula} {h : Handed} (hs : h.Shrinks f)
    (hf : h.formula f = f) : h = .same := by
  cases h with
  | same => rfl
  | other g =>
    have hl := hs Gauge.nodes
    rw [show g = f from hf] at hl
    exact absurd hl (Nat.lt_irrefl _)

theorem formula_neg (inner : Formula) (h : Handed) :
    (h.neg inner).formula (.neg inner) = (h.formula inner).foldedNeg := by
  unfold Handed.neg
  split
  · rename_i nested hg
    rw [hg]
    rfl
  · rename_i value hg
    rw [hg]
    rfl
  · rename_i hn hc
    have hf : (h.formula inner).foldedNeg = .neg (h.formula inner) := by
      cases hg : h.formula inner with
      | const value => exact absurd hg (hc value)
      | neg nested => exact absurd hg (hn nested)
      | var => rfl
      | bin => rfl
    rw [hf]
    by_cases hs : h = .same
    · rw [if_pos hs, hs]
      rfl
    · rw [if_neg hs]
      rfl

theorem formula_bin (op : Connective) (left right : Formula) (l r : Handed) :
    (l.bin op left right r).formula (.bin op left right) =
      (reduce op (l.formula left) (r.formula right)).visited := by
  unfold Handed.bin
  by_cases hs : Settled op (l.formula left) (r.formula right)
  · rw [if_pos hs, reduce_of_settled hs]
    by_cases hb : l = .same ∧ r = .same
    · rw [if_pos hb, hb.1, hb.2]
      rfl
    · rw [if_neg hb]
      rfl
  · rw [if_neg hs]
    rfl

theorem Shrinks.neg {inner : Formula} {h : Handed} (hs : h.Shrinks inner) :
    (h.neg inner).Shrinks (.neg inner) := by
  have hfold (g : Formula) (hg : h.formula inner = g) (hn : g.foldedNeg ≠ .neg g) :
      g.foldedNeg.Smaller (.neg inner) := by
    have hw := hs.within
    rw [hg] at hw
    exact ((foldedNeg_within g).resolve_left hn).trans_within hw.neg
  unfold Handed.neg
  split
  · rename_i nested hg
    exact hfold (.neg nested) hg (fun he => by cases he)
  · rename_i value hg
    exact hfold (.const value) hg (fun he => by cases he)
  · by_cases hh : h = .same
    · rw [if_pos hh]
      trivial
    · rw [if_neg hh]
      apply hs.within.neg.resolve_left
      intro he
      injection he with he
      exact hh (hs.same_of_formula he)

theorem Shrinks.bin (op : Connective) {left right : Formula} {l r : Handed} (hl : l.Shrinks left)
    (hr : r.Shrinks right) : (l.bin op left right r).Shrinks (.bin op left right) := by
  have hw := hl.within.bin op hr.within
  unfold Handed.bin
  by_cases hs : Settled op (l.formula left) (r.formula right)
  · rw [if_pos hs]
    by_cases hb : l = .same ∧ r = .same
    · rw [if_pos hb]
      trivial
    · rw [if_neg hb]
      apply hw.resolve_left
      intro he
      injection he with _ hel her
      exact hb ⟨hl.same_of_formula hel, hr.same_of_formula her⟩
  · rw [if_neg hs]
    exact (visited_smaller hs).trans_within hw

end Handed

theorem formula_handed (f : Formula) : (handed f).formula f = visit f := by
  induction f with
  | const value => exact (visit_const value).symm
  | var name => exact (visit_var name).symm
  | neg inner ih => rw [handed, Handed.formula_neg, ih, visit_neg]
  | bin op left right ihl ihr =>
    rw [handed, Handed.formula_bin, ihl, ihr, visit_bin]
    rfl

theorem handed_shrinks (f : Formula) : (handed f).Shrinks f := by
  induction f with
  | const => trivial
  | var => trivial
  | neg inner ih => exact ih.neg
  | bin op left right ihl ihr => exact ihl.bin op ihr

theorem smaller_of_handed {f g : Formula} (h : handed f = .other g) : g.Smaller f := by
  have hs := handed_shrinks f
  rwa [h] at hs

/-- Visits a formula until a visit hands back what it was given. -/
def loop (f : Formula) : Handed :=
  match _h : handed f with
  | .same => .same
  | .other g => .other ((loop g).formula g)
termination_by f.size
decreasing_by exact smaller_of_handed (by assumption) Gauge.nodes

end Sentential.Simplify.Prune
