import Sentential.Formula.Reordering
import Sentential.Proofs.Formula.Chain

/-!
# Meaning up to reordering

A matching tells which members of the pool were taken, so a condition that
partners share is met in the pool exactly if it is met by a member that found a
partner or by one that was left over. Alike formulas therefore have the same
truth value under every valuation and mention the same names.
-/

set_option autoImplicit false

namespace Sentential

namespace Matching

variable {α β : Type}

theorem take?_exists {p : β → Bool} {pool left : List β} (h : take? p pool = some left) :
    ∃ b ∈ pool, p b = true ∧ ∀ Q : β → Prop, (∃ c ∈ pool, Q c) ↔ Q b ∨ ∃ c ∈ left, Q c := by
  obtain ⟨before, b, after, rfl, rfl, hb, _⟩ := take?_eq_some h
  refine ⟨b, by simp, hb, ?_⟩
  intro Q
  simp only [List.mem_append, List.mem_cons, or_and_right, exists_or, exists_eq_left]
  rw [or_left_comm]

theorem leftover?_exists (P : α → Prop) (Q : β → Prop) {r : α → β → Bool} {as : List α}
    {pool left : List β} (hr : ∀ a ∈ as, ∀ b, r a b = true → (P a ↔ Q b))
    (h : leftover? r as pool = some left) :
    (∃ b ∈ pool, Q b) ↔ (∃ a ∈ as, P a) ∨ ∃ b ∈ left, Q b := by
  induction as generalizing pool with
  | nil =>
    cases h
    simp
  | cons a as ih =>
    rw [leftover?_cons] at h
    obtain ⟨next, ht, hl⟩ := Option.bind_eq_some_iff.mp h
    obtain ⟨b, _, hb, hpool⟩ := take?_exists ht
    rw [hpool, ih (fun a ha => hr a (by simp [ha])) hl, ← hr a (by simp) b hb]
    simp only [List.mem_cons, exists_eq_or_imp, or_assoc]

theorem embeds_exists (P : α → Prop) (Q : β → Prop) {r : α → β → Bool} {as : List α}
    {pool : List β} (hr : ∀ a ∈ as, ∀ b, r a b = true → (P a ↔ Q b))
    (h : embeds r as pool = true) (ha : ∃ a ∈ as, P a) : ∃ b ∈ pool, Q b := by
  obtain ⟨left, hl⟩ := Option.isSome_iff_exists.mp h
  exact (leftover?_exists P Q hr hl).mpr (.inl ha)

theorem pairsUp_exists (P : α → Prop) (Q : β → Prop) {r : α → β → Bool} {as : List α}
    {pool : List β} (hr : ∀ a ∈ as, ∀ b, r a b = true → (P a ↔ Q b))
    (h : pairsUp r as pool = true) : (∃ a ∈ as, P a) ↔ ∃ b ∈ pool, Q b := by
  rw [pairsUp, Bool.and_eq_true, beq_iff_eq] at h
  obtain ⟨left, hl⟩ := Option.isSome_iff_exists.mp h.2
  have hn : left = [] := by
    have hlength := length_leftover? hl
    exact List.length_eq_zero_iff.mp (by omega)
  rw [leftover?_exists P Q hr hl, hn]
  simp

end Matching

namespace Formula

theorem alike_same (f g : Formula) (h : f.alike g = true) :
    (∀ v, f.holds v = g.holds v) ∧ ∀ name, name ∈ f.occurrences ↔ name ∈ g.occurrences := by
  induction f, g using Formula.alike.induct with
  | case1 a b =>
    rw [alike_const, beq_iff_eq] at h
    subst h
    exact ⟨fun _ => rfl, fun _ => .rfl⟩
  | case2 a b =>
    rw [alike_var, beq_iff_eq] at h
    subst h
    exact ⟨fun _ => rfl, fun _ => .rfl⟩
  | case3 a b ih =>
    rw [alike_neg] at h
    obtain ⟨hv, hn⟩ := ih h
    exact ⟨fun v => by rw [holds, holds, hv], hn⟩
  | case4 p a b q c d ih =>
    rw [alike_bin, Bool.and_eq_true, beq_iff_eq] at h
    obtain ⟨rfl, h⟩ := h
    constructor
    · intro v
      apply p.eq_of_absorbing_iff
      rw [← holds_terms p (bin p a b), ← holds_terms p (bin p c d)]
      refine Matching.pairsUp_exists _ _ ?_ h
      intro t ht u hu
      rw [(ih ⟨t, ht⟩ u hu).1 v]
    · intro name
      rw [← mem_occurrences_terms p (bin p a b), ← mem_occurrences_terms p (bin p c d)]
      refine Matching.pairsUp_exists _ _ ?_ h
      intro t ht u hu
      exact (ih ⟨t, ht⟩ u hu).2 name
  | case5 f g => simp_all [alike]

/-- A condition that alike formulas share. -/
def Invariant (P : Formula → Prop) : Prop :=
  ∀ f g : Formula, f.alike g = true → (P f ↔ P g)

theorem value_invariant (v : Valuation) (b : Bool) : Invariant (fun f => f.holds v = b) := by
  intro f g h
  show f.holds v = b ↔ g.holds v = b
  rw [(alike_same f g h).1 v]

theorem mentions_invariant (name : String) : Invariant (fun f => name ∈ f.occurrences) :=
  fun f g h => (alike_same f g h).2 name

end Formula

end Sentential
