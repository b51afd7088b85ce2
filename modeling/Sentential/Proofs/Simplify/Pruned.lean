import Sentential.Formula.Groups
import Sentential.Simplify.Instance

/-!
# The normal form of pruning

A pruned formula has no constant and no doubled negation, and nothing applies to
any of its connectives. A visit hands back a formula as it is exactly if the
formula is pruned or a constant. The repetition of visits stops at the first
such formula and nowhere else; that it stops is not assumed but follows from the
number of nodes, which every other visit makes smaller.
-/

set_option autoImplicit false

namespace Sentential.Simplify.Prune

open Formula

inductive Pruned : Formula → Prop
  | var (name : String) : Pruned (.var name)
  | neg {f : Formula} : Pruned f → f.negated? = none → Pruned (.neg f)
  | bin {op : Connective} {left right : Formula} : Pruned left → Pruned right →
      Settled op left right → Pruned (.bin op left right)

namespace Handed

theorem neg_eq_same_iff (inner : Formula) (h : Handed) :
    h.neg inner = .same ↔ h = .same ∧ inner.constant? = none ∧ inner.negated? = none := by
  cases h with
  | same => cases inner <;> simp [Handed.neg, formula, constant?, negated?]
  | other g => cases g <;> simp [Handed.neg, formula]

theorem bin_eq_same_iff (op : Connective) (left right : Formula) (l r : Handed) :
    l.bin op left right r = .same ↔ l = .same ∧ r = .same ∧ Settled op left right := by
  unfold Handed.bin
  by_cases hb : l = .same ∧ r = .same
  · obtain ⟨rfl, rfl⟩ := hb
    by_cases hs : Settled op left right <;> simp [formula, hs]
  · rw [if_neg hb]
    have hn : ¬(l = .same ∧ r = .same ∧ Settled op left right) := fun h => hb ⟨h.1, h.2.1⟩
    by_cases hs : Settled op (l.formula left) (r.formula right) <;> simp [hs, hn]

end Handed

theorem Pruned.constant? {f : Formula} (h : Pruned f) : f.constant? = none := by
  cases h <;> rfl

theorem handed_eq_same_iff (f : Formula) :
    handed f = .same ↔ (∃ b, f = .const b) ∨ Pruned f := by
  induction f with
  | const value => exact ⟨fun _ => .inl ⟨value, rfl⟩, fun _ => rfl⟩
  | var name => exact ⟨fun _ => .inr (.var name), fun _ => rfl⟩
  | neg inner ih =>
    rw [handed, Handed.neg_eq_same_iff, ih]
    constructor
    · rintro ⟨⟨b, rfl⟩ | hp, hc, hn⟩
      · cases hc
      · exact .inr (.neg hp hn)
    · rintro (⟨b, hb⟩ | hp)
      · cases hb
      · cases hp with
        | neg hp hn => exact ⟨.inr hp, hp.constant?, hn⟩
  | bin op left right ihl ihr =>
    rw [handed, Handed.bin_eq_same_iff, ihl, ihr]
    constructor
    · rintro ⟨hl, hr, hs⟩
      have free {f : Formula} (hf : f.constant? = none) (h : (∃ b, f = .const b) ∨ Pruned f) :
          Pruned f := h.resolve_left (not_exists.mpr (ne_const_of_constant? hf))
      exact .inr (.bin (free hs.1 hl) (free hs.2.1 hr) hs)
    · rintro (⟨b, hb⟩ | hp)
      · cases hb
      · cases hp with
        | bin hl hr hs => exact ⟨.inr hl, .inr hr, hs⟩

theorem visit_eq_self_iff (f : Formula) : visit f = f ↔ handed f = .same := by
  rw [← formula_handed]
  constructor
  · exact (handed_shrinks f).same_of_formula
  · intro h
    rw [h]
    rfl

theorem handed_of_visit_ne (f : Formula) (h : visit f ≠ f) : handed f = .other (visit f) := by
  have hf := formula_handed f
  cases hh : handed f with
  | same => exact absurd ((visit_eq_self_iff f).mpr hh) h
  | other g =>
    rw [hh] at hf
    exact congrArg Handed.other hf

theorem loop_of_same {f : Formula} (h : handed f = .same) : loop f = .same := by
  rw [loop]
  split
  · rfl
  · rename_i g hg
    rw [h] at hg
    cases hg

theorem loop_of_other {f g : Formula} (h : handed f = .other g) :
    loop f = .other ((loop g).formula g) := by
  rw [loop]
  split
  · rename_i hs
    rw [h] at hs
    cases hs
  · rename_i g' hg
    rw [h] at hg
    cases hg
    rfl

theorem formula_loop (f : Formula) : (loop f).formula f = run f := by
  fun_induction run f with
  | case1 f h =>
    rw [loop_of_same ((visit_eq_self_iff f).mp h)]
    rfl
  | case2 f h ih =>
    rw [loop_of_other (handed_of_visit_ne f h)]
    exact ih

/-- A number of visits that hand back another formula each, and one more that hands back what it was
given. -/
inductive Visits : Nat → Formula → Formula → Prop
  | last {f : Formula} : handed f = .same → Visits 0 f f
  | more {n : Nat} {f g r : Formula} : handed f = .other g → Visits n g r → Visits (n + 1) f r

theorem visits_run (f : Formula) : ∃ n, n < f.size ∧ Visits n f (run f) := by
  fun_induction run f with
  | case1 f h => exact ⟨0, f.size_pos, .last ((visit_eq_self_iff f).mp h)⟩
  | case2 f h ih =>
    obtain ⟨n, hn, hv⟩ := ih
    have hh := handed_of_visit_ne f h
    have hs : (visit f).size < f.size := smaller_of_handed hh Gauge.nodes
    exact ⟨n + 1, by omega, .more hh hv⟩

theorem visit_run (f : Formula) : visit (run f) = run f := by
  fun_induction run f with
  | case1 f h => exact h
  | case2 f h ih => exact ih

theorem Pruned.hasConstant {f : Formula} (h : Pruned f) : f.hasConstant = false := by
  induction h with
  | var => rfl
  | neg _ _ ih => exact ih
  | bin _ _ _ ihl ihr =>
    rw [Formula.hasConstant, ihl, ihr]
    rfl

theorem Pruned.of_mem {f g : Formula} (h : Pruned f) (hg : g ∈ f.innerNodes) : Pruned g := by
  induction h with
  | var name => simp at hg
  | neg hf hn ih =>
    rw [innerNodes_neg, List.mem_append, List.mem_singleton] at hg
    rcases hg with hg | rfl
    · exact ih hg
    · exact .neg hf hn
  | bin hl hr hs ihl ihr =>
    rw [innerNodes_bin, List.mem_append, List.mem_append, List.mem_singleton] at hg
    rcases hg with (hg | hg) | rfl
    · exact ihl hg
    · exact ihr hg
    · exact .bin hl hr hs

theorem Pruned.noDoubleNegation {f : Formula} (h : Pruned f) (g : Formula) :
    .neg (.neg g) ∉ f.innerNodes := by
  intro hg
  cases h.of_mem hg with
  | neg _ hn => cases hn

theorem Pruned.settled {f : Formula} (h : Pruned f) {op : Connective} {left right : Formula}
    (hb : .bin op left right ∈ f.innerNodes) : Settled op left right := by
  cases h.of_mem hb with
  | bin _ _ hs => exact hs

/-- Pruning ends after fewer visits than the formula has nodes, with one that hands back its formula.
The result is a fixed point of a visit and of pruning, by instance and by value. It is a constant or
has none, has no doubled negation, and at each of its connectives no law applies to the two operands
and neither of them absorbs anything in the other. -/
theorem pruning_ends_in_normal_form (f : Formula) :
    (∃ n, n < f.size ∧ Visits n f (run f)) ∧ (loop f).formula f = run f ∧
    visit (run f) = run f ∧ run (run f) = run f ∧ loop (run f) = .same ∧
    ((∃ b, run f = .const b) ∨ (run f).hasConstant = false) ∧
    (∀ g, .neg (.neg g) ∉ (run f).innerNodes) ∧
    ∀ op left right, .bin op left right ∈ (run f).innerNodes →
      verdict op left right = .keep ∧
        absorbInto op left right = none ∧ absorbInto op right left = none := by
  have hv := visit_run f
  have hs := (visit_eq_self_iff (run f)).mp hv
  have hr : run (run f) = run f := by rw [run, if_pos hv]
  refine ⟨visits_run f, formula_loop f, hv, hr, loop_of_same hs, ?_⟩
  rcases (handed_eq_same_iff (run f)).mp hs with ⟨b, hb⟩ | hp
  · rw [hb]
    simp
  · exact ⟨.inr hp.hasConstant, hp.noDoubleNegation, fun op left right hn => (hp.settled hn).2.2⟩

end Sentential.Simplify.Prune
