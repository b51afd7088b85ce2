import Sentential.Formula.Meaning

/-!
# Keeping the meaning of a formula

A formula keeps the meaning of another if it has the same truth value under
every valuation and mentions no further name. Environments may leave names
undefined, so neither half suffices alone; together they say exactly that it
evaluates to the same value wherever the other one evaluates at all.
-/

set_option autoImplicit false

namespace Sentential.Formula

theorem holds_of_agree (v w : Valuation) (f : Formula)
    (h : ∀ name ∈ f.occurrences, v name = w name) : f.holds v = f.holds w := by
  induction f with
  | const => rfl
  | var name => exact h name (by simp)
  | neg inner ih =>
    rw [holds, holds, ih h]
  | bin op left right ihl ihr =>
    simp only [occurrences_bin, List.mem_append] at h
    rw [holds, holds, ihl (fun name hn => h name (.inl hn)), ihr (fun name hn => h name (.inr hn))]

/-- Names without a value are false. -/
def completed (env : Environment) : Valuation :=
  fun name => (env name).getD false

/-- Evaluation reports the first name from the left without a value and fails on nothing else. -/
theorem eval_eq (env : Environment) (f : Formula) :
    f.eval env =
      match f.occurrences.find? (fun name => (env name).isNone) with
      | some name => .error (.missingVariable name)
      | none => .ok (f.holds (completed env)) := by
  induction f with
  | const => rfl
  | var name => cases hv : env name <;> simp [eval, holds, completed, hv]
  | neg inner ih =>
    rw [occurrences_neg, eval, ih]
    cases inner.occurrences.find? (fun name => (env name).isNone) <;> rfl
  | bin op left right ihl ihr =>
    rw [occurrences_bin, List.find?_append, eval, ihl, ihr]
    cases left.occurrences.find? (fun name => (env name).isNone) with
    | some name => rfl
    | none => cases right.occurrences.find? (fun name => (env name).isNone) <;> rfl

/-- Formulas with the same variables in the same order and the same truth values evaluate alike,
also where that fails. -/
theorem eval_congr {f g : Formula} (ho : f.occurrences = g.occurrences)
    (hv : ∀ v, f.holds v = g.holds v) (env : Environment) : f.eval env = g.eval env := by
  rw [eval_eq, eval_eq, ho, hv]

theorem eval_iff (env : Environment) (f : Formula) (b : Bool) :
    f.eval env = .ok b ↔
      (∀ name ∈ f.occurrences, (env name).isSome = true) ∧ f.holds (completed env) = b := by
  rw [eval_eq]
  split
  · rename_i name hn
    have hnone := List.find?_eq_some_iff_append.mp hn
    simp only [reduceCtorEq, false_iff, not_and]
    intro hd
    have hsome := hd name (List.mem_of_find?_eq_some hn)
    rw [Option.isNone_iff_eq_none.mp hnone.1] at hsome
    cases hsome
  · rename_i hn
    have hd : ∀ name ∈ f.occurrences, (env name).isSome = true := by
      simpa [Option.isSome_iff_ne_none] using hn
    rw [Except.ok.injEq, and_iff_right hd]

structure Keeps (f g : Formula) : Prop where
  holds : ∀ v, g.holds v = f.holds v
  names : ∀ name ∈ g.occurrences, name ∈ f.occurrences

theorem Keeps.eval {f g : Formula} (h : Keeps f g) (env : Environment) (b : Bool)
    (he : f.eval env = .ok b) : g.eval env = .ok b := by
  obtain ⟨hd, hv⟩ := (eval_iff env f b).mp he
  apply (eval_iff env g b).mpr
  exact ⟨fun name hn => hd name (h.names name hn), (h.holds _).trans hv⟩

theorem keeps_iff_eval (f g : Formula) :
    Keeps f g ↔ ∀ env b, f.eval env = .ok b → g.eval env = .ok b := by
  constructor
  · intro h env b he
    exact h.eval env b he
  · intro h
    constructor
    · intro v
      have hv := h _ _ (eval_total v f)
      rw [eval_total] at hv
      exact Except.ok.inj hv
    · -- the environment that defines the names of `f` and no others
      intro name hn
      let env : Environment := fun n => if n ∈ f.occurrences then some true else none
      have hf : ∀ n ∈ f.occurrences, (env n).isSome = true := by
        intro n hm
        simp [env, hm]
      have hg := ((eval_iff env g _).mp (h env _ ((eval_iff env f _).mpr ⟨hf, rfl⟩))).1 name hn
      simpa [env] using hg

theorem Keeps.refl (f : Formula) : Keeps f f :=
  ⟨fun _ => rfl, fun _ h => h⟩

theorem Keeps.trans {f g h : Formula} (hf : Keeps f g) (hg : Keeps g h) : Keeps f h :=
  ⟨fun v => (hg.holds v).trans (hf.holds v), fun name hn => hf.names name (hg.names name hn)⟩

theorem Keeps.neg {f g : Formula} (h : Keeps f g) : Keeps (.neg f) (.neg g) :=
  ⟨fun v => by rw [Formula.holds, Formula.holds, h.holds], h.names⟩

theorem Keeps.bin (op : Connective) {left right l r : Formula} (hl : Keeps left l)
    (hr : Keeps right r) : Keeps (.bin op left right) (.bin op l r) := by
  constructor
  · intro v
    rw [Formula.holds, Formula.holds, hl.holds, hr.holds]
  · intro name hn
    rw [occurrences_bin, List.mem_append] at hn ⊢
    exact hn.imp (hl.names name) (hr.names name)

theorem holds_opposite (v : Valuation) (f : Formula) : f.opposite.holds v = !f.holds v := by
  cases f <;> simp [opposite, holds]

theorem occurrences_opposite (f : Formula) : f.opposite.occurrences = f.occurrences := by
  cases f <;> rfl

theorem foldedNeg_keeps (f : Formula) : Keeps (.neg f) f.foldedNeg := by
  cases f with
  | const => exact ⟨fun _ => rfl, fun _ h => h⟩
  | var => exact .refl _
  | neg inner => exact ⟨fun v => by simp [foldedNeg, holds], fun _ h => h⟩
  | bin => exact .refl _

end Sentential.Formula
