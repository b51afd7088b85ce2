import Sentential.Proofs.Clause.Rules

/-!
# Models of a formula and of its table

Distribution gives a table with the models of the formula, up to the names that
stand for constants. Replacement gives one whose models, with the auxiliary
variables left out of account, are the models of the formula. Neither of them
ever fails. A name with the number of an earlier auxiliary variable may occur in
the formula; only those still to be introduced have to be absent.
-/

set_option autoImplicit false

namespace Sentential
namespace Conversion

theorem rows_distributing_hold (positive : Bool) (next : Nat) (f : Formula) (v : Valuation)
    (hc : f.hasConstant = true → Grounded v) :
    RowsHold v (rows .distributing positive next f).1 ↔ f.holds v = positive := by
  induction f generalizing positive next with
  | const value => simp [rows, RowsHold, Literal.holds, Formula.holds, hc rfl value]
  | var name => simp [rows, RowsHold, Literal.holds, Formula.holds]
  | neg inner ih =>
    rw [rows, ih (!positive) next hc, Formula.holds, Bool.not_eq_eq_eq_not]
  | bin op left right ihl ihr =>
    simp only [Formula.hasConstant, Bool.or_eq_true, or_imp] at hc
    rw [Formula.holds]
    cases hu : op.under positive with
    | and =>
      rw [rows_and _ _ _ _ _ _ hu, rowsHold_append, ihl positive _ hc.1, ihr positive _ hc.2,
        apply_under_and positive op _ _ hu]
    | or =>
      rw [rows_distribute _ _ _ _ _ _ hu (by simp), rowsHold_distribute, ihl positive _ hc.1,
        ihr positive _ hc.2, apply_under_or positive op _ _ hu]

theorem grounded_iff (v : Valuation) :
    Grounded v ↔ v (constantName true) = true ∧ v (constantName false) = false := by
  simp [Grounded, and_comm]

/-- The valuations agree on every name but those of the constants and of the auxiliary variables
from number `lo` up to `hi`. -/
def AgreeElsewhere (lo hi : Nat) (v w : Valuation) : Prop :=
  ∀ name, (∀ b, name ≠ constantName b) → ¬Introduced lo hi name → w name = v name

theorem AgreeOutside.elsewhere {lo hi : Nat} {v w : Valuation}
    (h : AgreeOutside lo hi (ground v) w) : AgreeElsewhere lo hi v w :=
  fun name hc hi => (h name hi).trans (ground_of_ne v name hc)

theorem AgreeElsewhere.holds {lo hi : Nat} {v w : Valuation} (h : AgreeElsewhere lo hi v w)
    (f : Formula) (hc : ∀ b, constantName b ∉ f.occurrences) (hf : Spares f lo) :
    f.holds w = f.holds v := by
  apply Formula.holds_of_agree
  intro name hn
  apply h name
  · rintro b rfl
    exact hc b hn
  · exact hf.not_introduced (Nat.le_refl _) hn

end Conversion
open Conversion

theorem Converter.convert_models (c : Converter) (f : Formula)
    (hc : ∀ b, constantName b ∉ f.occurrences) (hf : Spares f c.next) (v : Valuation) :
    f.holds v = true ↔
      ∃ w, (c.convert f).1.holds w = true ∧ AgreeElsewhere c.next (c.convert f).2.next v w := by
  constructor
  · -- the constants' names get their values first, which the formula does not notice
    intro h
    have hground : AgreeElsewhere c.next c.next v (ground v) :=
      fun name hn _ => ground_of_ne v name hn
    obtain ⟨w, hw, ht⟩ := c.convert_extends f hf (ground v) (ground_grounded v)
      ((hground.holds f hc hf).trans h)
    exact ⟨w, ht, hw.elsewhere⟩
  · rintro ⟨w, ht, hw⟩
    rw [← hw.holds f hc hf]
    exact c.convert_sound f w ht

/-- Replacement always gives a table. The models of the formula are what is left of the models of
the table when the constants' names and the auxiliary variables introduced are disregarded. The
counter is taken to stay below 2⁶⁴, where the numbers of auxiliary variables would start anew. -/
theorem replacement_keeps_models (next : Nat) (f : Formula)
    (hc : ∀ b, constantName b ∉ f.names) (ha : ∀ k, next ≤ k → auxiliary k ∉ f.names) :
    ∃ t next', (Converter.mk .replacing next).convertByRules f = .ok (t, ⟨.replacing, next'⟩) ∧
      (Converter.mk .replacing next).convert f = (t, ⟨.replacing, next'⟩) ∧
      ∀ v, f.holds v = true ↔ ∃ w, t.holds w = true ∧
        ∀ name, (∀ b, name ≠ constantName b) → ¬Introduced next next' name → w name = v name := by
  have hc : ∀ b, constantName b ∉ f.occurrences := fun b hn => hc b ((f.mem_names _).mpr hn)
  have hf : Spares f next := by
    rintro name hn k hk rfl
    exact ha k hk ((f.mem_names _).mpr hn)
  refine ⟨_, _, Converter.convertByRules_eq _ f, rfl, ?_⟩
  exact (Converter.mk .replacing next).convert_models f hc hf

/-- The formula mentions the auxiliary variable of an earlier conversion and a constant, and it is
split both at the root and below a negation. -/
theorem replacement_keeps_models_numbered :
    ∃ t next', (Converter.mk .replacing 2).convertByRules
        (.or (.and (.var "temp_1") (.var "a")) (.neg (.and (.or (.var "b") (.var "c"))
          (.or (.const true) (.var "d"))))) = .ok (t, ⟨.replacing, next'⟩) ∧
      ∃ w, t.holds w = true ∧ w "temp_1" = true ∧ ∀ name ∈ ["a", "b", "c", "d"], w name = true := by
  have hheads : ∀ name ∈ ["a", "b", "c", "d"],
      name.toList.head? ≠ some 't' ∧ name.toList.head? ≠ some 'P' := by decide
  obtain ⟨t, next', ht, _, hmodels⟩ := replacement_keeps_models 2
    (.or (.and (.var "temp_1") (.var "a")) (.neg (.and (.or (.var "b") (.var "c"))
      (.or (.const true) (.var "d")))))
    (by
      intro b
      rw [Formula.mem_names]
      cases b <;> decide)
    (by
      intro k hk hn
      rcases List.mem_cons.mp ((Formula.mem_names _ _).mp hn) with h | h
      · have := auxiliary_injective k 1 h
        omega
      · exact ne_auxiliary_of_head _ k (hheads _ h).1 rfl)
  obtain ⟨w, hw, hagree⟩ := (hmodels (fun _ => true)).mp (by decide)
  refine ⟨t, next', ht, w, hw, ?_, ?_⟩
  · apply hagree (auxiliary 1) (auxiliary_ne_constantName 1)
    rw [introduced_auxiliary]
    omega
  · intro name hn
    apply hagree name (fun b => ne_constantName_of_head name b (hheads name hn).2)
    rintro ⟨k, _, _, he⟩
    exact ne_auxiliary_of_head name k (hheads name hn).1 he

theorem Converter.convert_distributing_holds (next : Nat) (f : Formula) (v : Valuation) :
    ((Converter.mk .distributing next).convert f).1.holds v = true ↔
      (f.hasConstant = true → Grounded v) ∧ f.holds v = true := by
  rw [convert_holds]
  exact and_congr_right (rows_distributing_hold true next f v)

/-- Distribution always gives a table and introduces nothing. The models of the table are those of
the formula; if the formula has a constant, then those that give the constants' names their
values. -/
theorem distribution_keeps_models (next : Nat) (f : Formula) :
    ∃ t, (Converter.mk .distributing next).convertByRules f = .ok (t, ⟨.distributing, next⟩) ∧
      (Converter.mk .distributing next).convert f = (t, ⟨.distributing, next⟩) ∧
      (f.hasConstant = false → ∀ v, t.holds v = true ↔ f.holds v = true) ∧
      (f.hasConstant = true → ∀ v, t.holds v = true ↔
        v (constantName true) = true ∧ v (constantName false) = false ∧ f.holds v = true) := by
  have hconvert := congrArg (Prod.mk ((Converter.mk .distributing next).convert f).1)
    ((Converter.mk .distributing next).convert_distributing rfl f)
  refine ⟨_, (Converter.convertByRules_eq _ f).trans (congrArg _ hconvert), hconvert, ?_, ?_⟩
  · intro hc v
    simp [Converter.convert_distributing_holds, hc]
  · intro hc v
    simp only [Converter.convert_distributing_holds, hc, forall_const, grounded_iff, and_assoc]

theorem distribution_keeps_models_constant :
    ∃ t, (Converter.mk .distributing 1).convertByRules
        (.neg (.and (.const true) (.and (.var "a") (.var "b")))) = .ok (t, ⟨.distributing, 1⟩) ∧
      ∀ v, t.holds v = true ↔
        v "PSEUDO_TRUE" = true ∧ v "PSEUDO_FALSE" = false ∧ (v "a" = false ∨ v "b" = false) := by
  obtain ⟨t, ht, _, _, hmodels⟩ := distribution_keeps_models 1
    (.neg (.and (.const true) (.and (.var "a") (.var "b"))))
  refine ⟨t, ht, fun v => ?_⟩
  rw [hmodels rfl v]
  cases ha : v "a" <;> simp [constantName, Formula.holds, Connective.apply, ha]

end Sentential
