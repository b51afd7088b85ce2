import Sentential.Proofs.Simplify.Laws
import Sentential.Simplify.Factor

/-!
# Soundness of common factors

Every list that common members are taken out of meets a condition exactly if
the common members or what is left of it meet it, as long as alike formulas
share the condition. Distributivity then gives the chain back from the common
factors and the chain of the remainders.
-/

set_option autoImplicit false

namespace Sentential.Simplify

open Formula

theorem mapM_take?_splits (P : Formula → Prop) (hp : Invariant P) (candidate : Formula)
    {lists lists' : List (List Formula)}
    (h : lists.mapM (Matching.take? (fun t => t.alike candidate)) = some lists') :
    ((∀ l ∈ lists, ∃ t ∈ l, P t) ↔ P candidate ∨ ∀ l ∈ lists', ∃ t ∈ l, P t) ∧
    ((∃ l ∈ lists', ∃ t ∈ l, P t) → ∃ l ∈ lists, ∃ t ∈ l, P t) := by
  induction lists generalizing lists' with
  | nil =>
    cases h
    simp
  | cons l ls ih =>
    simp only [List.mapM_cons, Option.bind_eq_bind, Option.bind_eq_some_iff, Option.pure_def,
      Option.some.injEq] at h
    obtain ⟨l', ht, ls', hr, rfl⟩ := h
    obtain ⟨b, _, hb, hex⟩ := Matching.take?_exists ht
    obtain ⟨hall, hany⟩ := ih hr
    constructor
    · rw [List.forall_mem_cons, List.forall_mem_cons, hall, hex, hp b candidate hb, or_and_left]
    · simp only [List.mem_cons, exists_eq_or_imp]
      intro hl
      exact hl.imp (fun h => (hex P).mpr (.inr h)) hany

/-- How a condition on the lists carries over to their common members and remainders. -/
structure Shared.Splits (P : Formula → Prop) (candidates : List Formula)
    (others : List (List Formula)) (s : Shared) : Prop where
  first : (∃ t ∈ candidates, P t) ↔ (∃ t ∈ s.common, P t) ∨ ∃ t ∈ s.rest, P t
  all : (∀ l ∈ others, ∃ t ∈ l, P t) ↔ (∃ t ∈ s.common, P t) ∨ ∀ l ∈ s.others, ∃ t ∈ l, P t
  any : (∃ l ∈ s.others, ∃ t ∈ l, P t) → ∃ l ∈ others, ∃ t ∈ l, P t

namespace Shared

theorem ofLists_splits (P : Formula → Prop) (hp : Invariant P) (candidates : List Formula)
    (others : List (List Formula)) : (ofLists candidates others).Splits P candidates others := by
  induction candidates generalizing others with
  | nil => exact ⟨by simp [ofLists], by simp [ofLists], by simp [ofLists]⟩
  | cons c cs ih =>
    rw [ofLists]
    split
    · rename_i others' ht
      obtain ⟨hall, hany⟩ := mapM_take?_splits P hp c ht
      have hs := ih others'
      constructor
      · simp only [List.mem_cons, exists_eq_or_imp, hs.first, or_assoc]
      · simp only [List.mem_cons, exists_eq_or_imp, hall, hs.all, or_assoc]
      · exact fun h => hany (hs.any h)
    · have hs := ih others
      constructor
      · simp only [List.mem_cons, exists_eq_or_imp, hs.first, or_left_comm]
      · exact hs.all
      · exact hs.any

theorem Splits.every {P : Formula → Prop} {candidates : List Formula}
    {others : List (List Formula)} {s : Shared} (h : s.Splits P candidates others) :
    (∀ l ∈ candidates :: others, ∃ t ∈ l, P t) ↔
      (∃ t ∈ s.common, P t) ∨ ∀ l ∈ s.rest :: s.others, ∃ t ∈ l, P t := by
  rw [List.forall_mem_cons, List.forall_mem_cons, h.first, h.all, or_and_left]

theorem Splits.some {P : Formula → Prop} {candidates : List Formula}
    {others : List (List Formula)} {s : Shared} (h : s.Splits P candidates others)
    (hs : (∃ t ∈ s.common, P t) ∨ ∃ l ∈ s.rest :: s.others, ∃ t ∈ l, P t) :
    ∃ l ∈ candidates :: others, ∃ t ∈ l, P t := by
  simp only [List.mem_cons, exists_eq_or_imp] at hs ⊢
  rcases hs with hc | hr | ho
  · exact .inl (h.first.mpr (.inl hc))
  · exact .inl (h.first.mpr (.inr hr))
  · exact .inr (h.any ho)

end Shared

theorem filterMap_join?_all {op : Connective} {P : Formula → Prop} (hp : Additive op P)
    (lists : List (List Formula)) (hl : [] ∉ lists) :
    (∀ f ∈ lists.filterMap op.join?, P f) ↔ ∀ l ∈ lists, ∃ t ∈ l, P t := by
  simp only [List.mem_filterMap]
  constructor
  · intro h l hm
    have hne : op.join? l ≠ none := fun hn => hl ((op.join?_eq_none l).mp hn ▸ hm)
    obtain ⟨f, hj⟩ := Option.ne_none_iff_exists'.mp hne
    exact (hp.join? hj).mp (h f ⟨l, hm, hj⟩)
  · rintro h f ⟨l, hm, hj⟩
    exact (hp.join? hj).mpr (h l hm)

namespace Shared

theorem join?_absorbing (op : Connective) (s : Shared) (f : Formula) (h : s.join? op = .some f)
    (v : Valuation) : f.holds v = op.dual.absorbing ↔
      (∃ t ∈ s.common, t.holds v = op.dual.absorbing) ∨
        ∀ l ∈ s.rest :: s.others, ∃ t ∈ l, t.holds v = op.dual.absorbing := by
  have hd := absorbing_additive op.dual v
  unfold Shared.join? at h
  split at h
  · cases h
  · split at h
    · rename_i hn
      rw [hd.join? h]
      refine (or_iff_left ?_).symm
      intro hall
      simpa using hall [] hn
    · rename_i hn
      split at h
      · rename_i remainder hr
        have hrv : remainder.holds v = op.dual.absorbing ↔
            ∀ l ∈ s.rest :: s.others, ∃ t ∈ l, t.holds v = op.dual.absorbing := by
          rw [← filterMap_join?_all hd _ hn, ← holds_join_dual, op.join_eq_of_some hr]
        rw [hd.join? h, ← hrv]
        simp only [List.mem_append, List.mem_singleton, or_and_right, exists_or, exists_eq_left]
      · cases h

theorem join?_mentions (op : Connective) (s : Shared) (f : Formula) (h : s.join? op = .some f)
    (name : String) (hn : name ∈ f.occurrences) : (∃ t ∈ s.common, name ∈ t.occurrences) ∨
      ∃ l ∈ s.rest :: s.others, ∃ t ∈ l, name ∈ t.occurrences := by
  have hm := mentions_additive op.dual name
  unfold Shared.join? at h
  split at h
  · cases h
  · split at h
    · exact .inl ((hm.join? h).mp hn)
    · split at h
      · rename_i remainder hr
        obtain ⟨t, ht, hnt⟩ := (hm.join? h).mp hn
        rw [List.mem_append, List.mem_singleton] at ht
        rcases ht with hc | rfl
        · exact .inl ⟨t, hc, hnt⟩
        · right
          obtain ⟨g, hg, hng⟩ := ((mentions_additive op name).join? hr).mp hnt
          obtain ⟨l, hl, hj⟩ := List.mem_filterMap.mp hg
          exact ⟨l, hl, (hm.join? hj).mp hng⟩
      · cases h

end Shared

theorem factor_keeps (op : Connective) (ts : List Formula) (f : Formula)
    (h : factor op ts = some f) : Keeps (op.join ts) f := by
  unfold factor at h
  split at h
  · rename_i first second more
    split at h
    · have hlists : first.terms op.dual :: (second :: more).map (fun t => t.terms op.dual) =
          (first :: second :: more).map (fun t => t.terms op.dual) := rfl
      apply keeps_of_absorbing op.dual
      · intro v
        have hs := Shared.ofLists_splits _ (value_invariant v op.dual.absorbing)
          (first.terms op.dual) ((second :: more).map (fun t => t.terms op.dual))
        rw [Shared.join?_absorbing op _ f h v, ← hs.every, hlists, List.forall_mem_map,
          holds_join_dual]
        simp only [holds_terms]
      · intro name hn
        have hs := Shared.ofLists_splits _ (mentions_invariant name)
          (first.terms op.dual) ((second :: more).map (fun t => t.terms op.dual))
        obtain ⟨l, hl, hnl⟩ := hs.some (Shared.join?_mentions op _ f h name hn)
        rw [hlists] at hl
        obtain ⟨t, ht, rfl⟩ := List.mem_map.mp hl
        rw [mem_occurrences_join]
        exact ⟨t, ht, (mem_occurrences_terms op.dual t name).mp hnl⟩
    · cases h
  · cases h

end Sentential.Simplify
