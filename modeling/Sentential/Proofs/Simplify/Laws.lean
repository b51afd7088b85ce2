import Sentential.Simplify.Laws
import Sentential.Proofs.Formula.Rearrangement
import Sentential.Proofs.Formula.Reordering

/-!
# Soundness of the laws for two operands

Each law replaces two operands of a connective without changing what their
chain means. Where the first operand decides the chain, any second one will do;
where it does not, it has the neutral value, and the laws say what the second
operand becomes then.
-/

set_option autoImplicit false

namespace Sentential.Simplify

open Formula

theorem complementary_holds (a b : Formula) (h : complementary a b = true) (v : Valuation) :
    b.holds v = !a.holds v := by
  unfold complementary at h
  rw [Bool.or_eq_true] at h
  rcases h with h | h
  · cases a with
    | neg inner =>
      rw [holds, Bool.not_not]
      exact ((alike_same inner b h).1 v).symm
    | const => cases h
    | var => cases h
    | bin => cases h
  · cases b with
    | neg inner => rw [holds, (alike_same a inner h).1 v]
    | const => cases h
    | var => cases h
    | bin => cases h

/-- What two operands become under a verdict. -/
def Verdict.result (op : Connective) (left right : Formula) : Verdict → Formula
  | .keep => .bin op left right
  | .dropLeft => right
  | .dropRight => left
  | .collapse => .const op.absorbing
  | .replaceLeft f => .bin op f right
  | .replaceRight f => .bin op left f

/-- Beside `term`, the formula `g` is as good as `f`. -/
structure Beside (op : Connective) (term f g : Formula) : Prop where
  holds : ∀ v, term.holds v = op.neutral → g.holds v = f.holds v
  names : ∀ name ∈ g.occurrences, name ∈ f.occurrences

theorem Beside.right {op : Connective} {term f g : Formula} (h : Beside op term f g) :
    Keeps (.bin op term f) (.bin op term g) := by
  apply keeps_of_absorbing op
  · intro v
    rw [holds_bin_absorbing, holds_bin_absorbing]
    by_cases ht : term.holds v = op.absorbing
    · simp [ht]
    · rw [h.holds v ((op.ne_absorbing_iff _).mp ht)]
  · intro name hn
    rw [mem_occurrences_bin] at hn ⊢
    exact hn.imp_right (h.names name)

theorem bin_comm_keeps (op : Connective) (left right : Formula) :
    Keeps (.bin op left right) (.bin op right left) := by
  apply keeps_of_absorbing op
  · intro v
    rw [holds_bin_absorbing, holds_bin_absorbing, or_comm]
  · intro name hn
    rw [mem_occurrences_bin] at hn ⊢
    exact hn.symm

theorem Beside.left {op : Connective} {term f g : Formula} (h : Beside op term f g) :
    Keeps (.bin op f term) (.bin op g term) :=
  (bin_comm_keeps op f term).trans (h.right.trans (bin_comm_keeps op term g))

theorem drop_right_keeps (op : Connective) (left right : Formula)
    (h : ∀ v, right.holds v = op.absorbing → left.holds v = op.absorbing) :
    Keeps (.bin op left right) left := by
  apply keeps_of_absorbing op
  · intro v
    rw [holds_bin_absorbing]
    exact ⟨.inl, fun hv => hv.elim id (h v)⟩
  · intro name hn
    exact (mem_occurrences_bin op left right name).mpr (.inl hn)

theorem drop_left_keeps (op : Connective) (left right : Formula)
    (h : ∀ v, left.holds v = op.absorbing → right.holds v = op.absorbing) :
    Keeps (.bin op left right) right :=
  (bin_comm_keeps op left right).trans (drop_right_keeps op right left h)

theorem collapse_keeps (op : Connective) (left right : Formula)
    (h : complementary left right = true) :
    Keeps (.bin op left right) (.const op.absorbing) := by
  apply keeps_of_absorbing op
  · intro v
    rw [holds_bin_absorbing, complementary_holds left right h v, op.not_eq_absorbing_iff]
    exact ⟨fun _ => Decidable.em _, fun _ => rfl⟩
  · intro name hn
    simp at hn

theorem embed_absorbing (op : Connective) (left right : Formula)
    (h : termsEmbed (left.terms op.dual) (right.terms op.dual) = true) (v : Valuation)
    (hv : right.holds v = op.absorbing) : left.holds v = op.absorbing := by
  have hd : left.holds v = op.dual.absorbing → right.holds v = op.dual.absorbing := by
    rw [← holds_terms op.dual left, ← holds_terms op.dual right]
    exact Matching.embeds_exists _ _ (fun a _ b hab => value_invariant v _ a b hab) h
  rw [Connective.dual_absorbing] at hd
  by_cases hl : left.holds v = op.absorbing
  · exact hl
  · have hr := hd ((op.ne_absorbing_iff _).mp hl)
    rw [hv] at hr
    exact absurd hr.symm op.neutral_ne_absorbing

theorem withoutComplement_beside (op : Connective) (term other f : Formula)
    (h : withoutComplement op term (other.terms op.dual) = some f) : Beside op term other f := by
  rw [withoutComplement] at h
  split at h
  · cases h
  · obtain ⟨rest, ht, hj⟩ := Option.bind_eq_some_iff.mp h
    obtain ⟨b, _, hb, hex⟩ := Matching.take?_exists ht
    constructor
    · intro v hv
      apply op.dual.eq_of_absorbing_iff
      rw [(absorbing_additive op.dual v).join? hj, ← holds_terms op.dual other, hex]
      have hbv : ¬b.holds v = op.dual.absorbing := by
        rw [complementary_holds term b hb v, hv, op.not_neutral, op.dual_absorbing]
        exact op.neutral_ne_absorbing.symm
      exact (or_iff_right hbv).symm
    · intro name hn
      rw [(mentions_additive op.dual name).join? hj] at hn
      rw [← mem_occurrences_terms op.dual other, hex]
      exact .inr hn

theorem absorbNegated_cases (op : Connective) (term other : Formula) (a : Absorbed)
    (h : absorbNegated op term other = some a) : ∃ inner, other = .neg inner ∧
      match a with
      | .rest f => ∃ rest joined, op.join? rest = some joined ∧ f = joined.opposite ∧
          Matching.take? (fun t => t.alike term) (inner.terms op) = some rest
      | .whole => ∃ t ∈ inner.terms op, complementary t term = true := by
  cases other with
  | neg inner =>
    refine ⟨inner, rfl, ?_⟩
    cases inner with
    | bin p left right =>
      by_cases hp : p = op
      · subst hp
        simp only [absorbNegated, if_pos] at h
        split at h
        · rename_i rest ht
          obtain ⟨joined, hj, rfl⟩ := Option.map_eq_some_iff.mp h
          exact ⟨rest, joined, hj, rfl, ht⟩
        · by_cases hany : ((bin p left right).terms p).any (fun t => complementary t term) = true
          · rw [if_pos hany] at h
            cases h
            exact List.any_eq_true.mp hany
          · rw [if_neg hany] at h
            cases h
      · rw [absorbNegated, if_neg hp] at h
        cases h
    | const => cases h
    | var => cases h
    | neg => cases h
  | const => cases h
  | var => cases h
  | bin => cases h

theorem absorbNegated_rest_beside (op : Connective) (term other f : Formula)
    (h : absorbNegated op term other = some (.rest f)) : Beside op term other f := by
  obtain ⟨inner, rfl, rest, joined, hj, rfl, ht⟩ := absorbNegated_cases op term other _ h
  obtain ⟨b, _, hb, hex⟩ := Matching.take?_exists ht
  constructor
  · intro v hv
    rw [holds_opposite, holds]
    apply congrArg
    apply op.eq_of_absorbing_iff
    rw [(absorbing_additive op v).join? hj, ← holds_terms op inner, hex]
    have hbv : ¬b.holds v = op.absorbing := by
      rw [(alike_same b term hb).1 v, hv]
      exact op.neutral_ne_absorbing
    exact (or_iff_right hbv).symm
  · intro name hn
    rw [occurrences_opposite, (mentions_additive op name).join? hj] at hn
    rw [occurrences_neg, ← mem_occurrences_terms op inner, hex]
    exact .inr hn

theorem absorbNegated_whole_absorbing (op : Connective) (term other : Formula)
    (h : absorbNegated op term other = some .whole) (v : Valuation)
    (hv : other.holds v = op.absorbing) : term.holds v = op.absorbing := by
  obtain ⟨inner, rfl, t, ht, hc⟩ := absorbNegated_cases op term other _ h
  rw [holds, op.not_eq_absorbing_iff, ← holds_terms op inner] at hv
  rw [complementary_holds t term hc v, op.not_eq_absorbing_iff]
  exact fun htv => hv ⟨t, ht, htv⟩

/-- Every verdict replaces its two operands by something of the same meaning. -/
theorem verdict_keeps (op : Connective) (left right : Formula) :
    Keeps (.bin op left right) ((verdict op left right).result op left right) := by
  unfold verdict
  repeat' split
  · rename_i h
    apply drop_right_keeps
    intro v hv
    rw [(alike_same left right h).1 v, hv]
  · rename_i h
    exact collapse_keeps op left right h
  · rename_i h
    exact drop_right_keeps op left right (embed_absorbing op left right h)
  · rename_i h
    exact drop_left_keeps op left right (embed_absorbing op right left h)
  · rename_i h
    exact (withoutComplement_beside op left right _ h).right
  · rename_i h
    exact (withoutComplement_beside op right left _ h).left
  · rename_i h
    exact (absorbNegated_rest_beside op left right _ h).right
  · rename_i h
    exact drop_right_keeps op left right (absorbNegated_whole_absorbing op left right h)
  · rename_i h
    exact (absorbNegated_rest_beside op right left _ h).left
  · rename_i h
    exact drop_left_keeps op left right (absorbNegated_whole_absorbing op right left h)
  · exact .refl _

theorem complementary_iff (a b : Formula) :
    complementary a b = true ↔
      (∃ inner, a = .neg inner ∧ inner.alike b = true) ∨
        ∃ inner, b = .neg inner ∧ inner.alike a = true := by
  cases a <;> cases b <;> simp [complementary, alike_comm]

theorem complementary_comm (a b : Formula) : complementary a b = complementary b a := by
  rw [Bool.eq_iff_iff, complementary_iff, complementary_iff, or_comm]

/-- Two operands are kept exactly if no law applies to them. -/
theorem verdict_keep_iff (op : Connective) (left right : Formula) :
    verdict op left right = .keep ↔
      left.alike right = false ∧ complementary left right = false ∧
      (termsEmbed (left.terms op.dual) (right.terms op.dual) = false ∧
        termsEmbed (right.terms op.dual) (left.terms op.dual) = false) ∧
      (withoutComplement op left (right.terms op.dual) = none ∧
        withoutComplement op right (left.terms op.dual) = none) ∧
      absorbNegated op left right = none ∧ absorbNegated op right left = none := by
  unfold verdict
  repeat' split
  all_goals simp_all

theorem verdict_keep_comm (op : Connective) (left right : Formula)
    (h : verdict op left right = .keep) : verdict op right left = .keep := by
  rw [verdict_keep_iff] at h ⊢
  obtain ⟨ha, hc, he, hw, hn⟩ := h
  exact ⟨(alike_comm right left).trans ha, (complementary_comm right left).trans hc, he.symm,
    hw.symm, hn.symm⟩

end Sentential.Simplify
