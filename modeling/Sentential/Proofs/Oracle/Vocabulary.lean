import Sentential.Proofs.Clause.Names
import Sentential.Proofs.Oracle.Question

/-!
# The vocabulary of a run

When the next question depends on the last answer, the tables that will be asked
about are not known beforehand, but their names are confined: to the names of the
formulas, to those of the constants if a formula has one, and to the auxiliary
variables that the converter has introduced. Negating and joining formulas brings
in nothing new, and the converter only counts up, so a bound on the last number
confines every question of the run.
-/

set_option autoImplicit false

namespace Sentential
open Conversion

/-- The names in tables of the formula, apart from auxiliary variables. -/
def Formula.labels (f : Formula) : List String :=
  f.names ++ if f.hasConstant then [constantName false, constantName true] else []

/-- The auxiliary variables that come before the one with number `next`. -/
def auxiliaries (next : Nat) : List String :=
  (List.range' 1 (next - 1)).map auxiliary

theorem mem_labels (f : Formula) (name : String) :
    name ∈ f.labels ↔ name ∈ f.occurrences ∨ f.hasConstant = true ∧ ∃ b, name = constantName b := by
  rw [Formula.labels, List.mem_append, Formula.mem_names]
  by_cases hc : f.hasConstant = true <;> simp [hc]

theorem mem_auxiliaries {lo hi : Nat} {name : String} (h : Introduced lo hi name) (hlo : 1 ≤ lo) :
    name ∈ auxiliaries hi := by
  obtain ⟨k, hk, hk', rfl⟩ := h
  exact List.mem_map_of_mem (List.mem_range'_1.mpr ⟨by omega, by omega⟩)

/-- The formula has no reserved name and no label but the given words. -/
structure Formula.Confined (words : List String) (f : Formula) : Prop where
  unreserved : f.Unreserved
  labels : f.labels ⊆ words

theorem Formula.Confined.neg {words : List String} {f : Formula} (h : f.Confined words) :
    (Formula.neg f).Confined words where
  unreserved := h.unreserved.neg
  labels := h.labels

theorem Formula.Confined.bin {words : List String} {f g : Formula} (op : Connective)
    (hf : f.Confined words) (hg : g.Confined words) : (Formula.bin op f g).Confined words where
  unreserved := hf.unreserved.bin op hg.unreserved
  labels := by
    intro name hn
    rw [mem_labels, Formula.occurrences_bin, List.mem_append, Formula.hasConstant,
      Bool.or_eq_true] at hn
    have hleft := fun h => hf.labels ((mem_labels f name).mpr h)
    have hright := fun h => hg.labels ((mem_labels g name).mpr h)
    rcases hn with (hn | hn) | ⟨hc | hc, hb⟩
    · exact hleft (.inl hn)
    · exact hright (.inl hn)
    · exact hleft (.inr ⟨hc, hb⟩)
    · exact hright (.inr ⟨hc, hb⟩)

/-- The table of a question has no name beyond the words and the auxiliary variables below the
number that the converter has got to. -/
theorem Oracle.question_names {σ : Type} [Solver σ] {words : List String} {limit : Nat}
    (o : Oracle σ) (ho : 1 ≤ o.converter.next) (f : Formula) (hf : f.Confined words)
    (hl : (o.satisfiable f).2.converter.next ≤ limit) :
    (o.converter.convert f).1.names ⊆ words ++ auxiliaries limit := by
  intro name hn
  rw [List.mem_append]
  have hlabel := fun h => hf.labels ((mem_labels f name).mpr h)
  rcases (o.converter.mem_convert_names f name).mp hn with h | h | h
  · exact .inl (hlabel (.inl h))
  · exact .inl (hlabel (.inr h))
  · exact .inr (mem_auxiliaries (h.widen (Nat.le_refl _) hl) ho)

end Sentential
