import Sentential.Formula.Negations
import Sentential.Proofs.Formula.Chain

/-!
# Soundness of moving negations

Pushing negations down is sound for both polarities at once. Pulling a negation
out of a chain is De Morgan's law for all of its operands, where a chain is
decided exactly if its dual, over the operands without their negations, is.
-/

set_option autoImplicit false

namespace Sentential.Formula

theorem apply_under (positive : Bool) (op : Connective) (a b : Bool) :
    (op.under positive).apply (positive == a) (positive == b) = (positive == op.apply a b) := by
  cases positive <;> cases op <;> cases a <;> cases b <;> rfl

theorem holds_pushUnder (positive : Bool) (f : Formula) (v : Valuation) :
    (f.pushUnder positive).holds v = (positive == f.holds v) := by
  induction f generalizing positive with
  | const => cases positive <;> simp [pushUnder, holds]
  | var => cases positive <;> simp [pushUnder, holds]
  | neg inner ih =>
    rw [pushUnder, ih, holds]
    cases positive <;> simp
  | bin op left right ihl ihr =>
    rw [pushUnder, holds, holds, ihl, ihr, apply_under]

theorem occurrences_pushUnder (positive : Bool) (f : Formula) :
    (f.pushUnder positive).occurrences = f.occurrences := by
  induction f generalizing positive with
  | const => cases positive <;> rfl
  | var => cases positive <;> rfl
  | neg inner ih => exact ih (!positive)
  | bin op left right ihl ihr =>
    rw [pushUnder, occurrences_bin, occurrences_bin, ihl, ihr]

theorem pushNegations_keeps (f : Formula) : Keeps f f.pushNegations := by
  constructor
  · intro v
    rw [pushNegations, holds_pushUnder, Bool.true_beq]
  · intro name hn
    rwa [pushNegations, occurrences_pushUnder] at hn

theorem mapM_negated? (ts inners : List Formula) (h : ts.mapM negated? = some inners) :
    ts = inners.map neg := by
  induction ts generalizing inners with
  | nil =>
    cases h
    rfl
  | cons t ts ih =>
    simp only [List.mapM_cons, Option.bind_eq_bind, Option.bind_eq_some_iff, Option.pure_def,
      Option.some.injEq] at h
    obtain ⟨inner, ht, rest, hr, rfl⟩ := h
    rw [List.map_cons, ← ih rest hr]
    cases t with
    | neg t =>
      cases ht
      rfl
    | const => cases ht
    | var => cases ht
    | bin => cases ht

theorem holds_neg_dual (op : Connective) (f : Formula) (v : Valuation) :
    (neg f).holds v = op.absorbing ↔ f.holds v = op.dual.absorbing := by
  rw [holds, op.not_eq_absorbing_iff, op.dual_absorbing, ← op.ne_absorbing_iff]

theorem joinNegated_keeps (op : Connective) (ts : List Formula) :
    Keeps (op.join ts) (joinNegated op ts) := by
  rw [joinNegated]
  split
  · rename_i inners h
    rw [mapM_negated? ts inners h]
    apply keeps_of_absorbing op
    · intro v
      rw [holds_neg_dual, holds_join, holds_join]
      constructor
      · rintro ⟨inner, hi, hv⟩
        exact ⟨.neg inner, List.mem_map_of_mem hi, (holds_neg_dual op inner v).mpr hv⟩
      · rintro ⟨t, ht, hv⟩
        obtain ⟨inner, hi, rfl⟩ := List.mem_map.mp ht
        exact ⟨inner, hi, (holds_neg_dual op inner v).mp hv⟩
    · intro name hn
      rw [occurrences_neg, mem_occurrences_join] at hn
      obtain ⟨inner, hi, hin⟩ := hn
      rw [mem_occurrences_join]
      exact ⟨.neg inner, List.mem_map_of_mem hi, hin⟩
  · exact .refl _

theorem join_map_keeps (op : Connective) (h : Formula → Formula) (ts : List Formula)
    (hk : ∀ t ∈ ts, Keeps t (h t)) : Keeps (op.join ts) (op.join (ts.map h)) := by
  induction ts with
  | nil => exact .refl _
  | cons t ts ih =>
    rw [List.forall_mem_cons] at hk
    exact join_cons_keeps op hk.1 (ih hk.2)

theorem pullNegations_keeps (f : Formula) : Keeps f f.pullNegations := by
  induction f using chain_induction with
  | const value => rw [pullNegations_const]; exact .refl _
  | var name => rw [pullNegations_var]; exact .refl _
  | neg inner ih =>
    rw [pullNegations_neg]
    exact ih.neg
  | chain op left right ih =>
    rw [pullNegations_bin]
    exact ((keeps_join_terms op _).trans (join_map_keeps op pullNegations _ ih)).trans
      (joinNegated_keeps op _)

end Sentential.Formula
