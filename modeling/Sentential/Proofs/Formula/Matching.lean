import Mathlib.Data.Fintype.EquivFin
import Mathlib.Data.List.FinRange
import Sentential.Matching.Marks
import Sentential.Proofs.Formula.Rearrangement
import Sentential.Proofs.Formula.Symmetry

/-!
# Greedy matching finds a matching if there is one

A choice of partners is a list of different positions without a mark. When a
member marks the first position it can, the choice that some matching makes for
the members after it may need that position; exchanging it there for the one that
the matching had given away keeps the matching. All that is asked of the relation
is that the partners of a member are partners of whatever has one of them as a
partner.
-/

set_option autoImplicit false

namespace Sentential

namespace Matching

variable {α β : Type} {r : α → β → Bool} {pool : List β}

theorem get_mark {n : Nat} (marks : Vector Bool n) (i p : Fin n) :
    (mark marks i).get p = false ↔ p ≠ i ∧ marks.get p = false := by
  show (marks.set i.val true)[p.val] = false ↔ p ≠ i ∧ marks[p.val] = false
  rw [Vector.getElem_set]
  by_cases h : i.val = p.val
  · simp [h, Fin.ext_iff]
  · simp [h, Fin.ext_iff, Ne.symm h]

theorem get_unmarked {n : Nat} (p : Fin n) : (Vector.replicate n false).get p = false :=
  Vector.getElem_replicate p.isLt

theorem mark?_eq_some {marks marks' : Vector Bool pool.length} {a : α}
    (h : mark? r pool marks a = some marks') :
    ∃ i : Fin pool.length, marks.get i = false ∧ r a (pool.get i) = true ∧
      marks' = mark marks i := by
  obtain ⟨i, hi, he⟩ := Option.map_eq_some_iff.mp h
  have hfound := List.find?_some hi
  rw [Bool.and_eq_true, Bool.not_eq_true'] at hfound
  exact ⟨i, hfound.1, hfound.2, he.symm⟩

theorem mark?_eq_none {marks : Vector Bool pool.length} {a : α}
    (h : mark? r pool marks a = none) (i : Fin pool.length) (hi : marks.get i = false) :
    r a (pool.get i) = false := by
  have hnone := List.find?_eq_none.mp (Option.map_eq_none_iff.mp h) i (List.mem_finRange i)
  simpa [hi] using hnone

/-- The positions have no marks, are all different, and hold partners of the members of `as`. -/
structure Places (r : α → β → Bool) (pool : List β) (marks : Vector Bool pool.length) (as : List α)
    (ps : List (Fin pool.length)) : Prop where
  nodup : ps.Nodup
  free : ∀ p ∈ ps, marks.get p = false
  partners : List.Forall₂ (fun a p => r a (pool.get p) = true) as ps

/-- Whatever is a partner of two members, these have the same partners. -/
def Interchangeable (r : α → β → Bool) : Prop :=
  ∀ a a' b b', r a b = true → r a b' = true → r a' b = true → r a' b' = true

/-- The places of two partners of `a` can be exchanged in any choice. -/
theorem Interchangeable.swap (hr : Interchangeable r) {a : α} {i p : Fin pool.length}
    (hp : r a (pool.get p) = true) (hi : r a (pool.get i) = true) {a' : α} {q : Fin pool.length}
    (hq : r a' (pool.get q) = true) : r a' (pool.get (Equiv.swap p i q)) = true := by
  rw [Equiv.swap_apply_def]
  by_cases hqp : q = p
  · rw [if_pos hqp]
    exact hr a a' (pool.get p) (pool.get i) hp hi (hqp ▸ hq)
  · rw [if_neg hqp]
    by_cases hqi : q = i
    · rw [if_pos hqi]
      exact hr a a' (pool.get i) (pool.get p) hi hp (hqi ▸ hq)
    · rw [if_neg hqi]
      exact hq

/-- The others find partners also if `a` marks another position than its place. -/
theorem Places.exchange {marks : Vector Bool pool.length} {a : α} {as : List α}
    {i p : Fin pool.length} {ps : List (Fin pool.length)} (hr : Interchangeable r)
    (h : Places r pool marks (a :: as) (p :: ps)) (ha : r a (pool.get i) = true) :
    Places r pool (mark marks i) as (ps.map (Equiv.swap p i)) := by
  obtain ⟨hp, hnodup⟩ := List.nodup_cons.mp h.nodup
  obtain ⟨hap, hpartners⟩ := List.forall₂_cons.mp h.partners
  constructor
  · exact hnodup.map (Equiv.injective _)
  · intro q' hq'
    obtain ⟨q, hq, rfl⟩ := List.mem_map.mp hq'
    have hqp : q ≠ p := fun he => hp (he ▸ hq)
    rw [get_mark, Equiv.swap_apply_def, if_neg hqp]
    by_cases hqi : q = i
    · rw [if_pos hqi]
      exact ⟨fun he => hqp (hqi.trans he.symm), h.free p (by simp)⟩
    · rw [if_neg hqi]
      exact ⟨hqi, h.free q (by simp [hq])⟩
  · rw [List.forall₂_map_right_iff]
    exact hpartners.imp (fun _ _ hq => hr.swap hap ha hq)

theorem Places.cons {marks : Vector Bool pool.length} {a : α} {as : List α} {i : Fin pool.length}
    {ps : List (Fin pool.length)} (h : Places r pool (mark marks i) as ps)
    (hi : marks.get i = false) (ha : r a (pool.get i) = true) :
    Places r pool marks (a :: as) (i :: ps) := by
  have hfree (p : Fin pool.length) (hp : p ∈ ps) := (get_mark marks i p).mp (h.free p hp)
  constructor
  · exact List.nodup_cons.mpr ⟨fun hm => (hfree i hm).1 rfl, h.nodup⟩
  · exact List.forall_mem_cons.mpr ⟨hi, fun p hp => (hfree p hp).2⟩
  · exact .cons ha h.partners

/-- Marking the first partner never costs a matching. -/
theorem mark?_places (hr : Interchangeable r) {marks marks' : Vector Bool pool.length} {a : α}
    (as : List α) (h : mark? r pool marks a = some marks') :
    (∃ ps, Places r pool marks' as ps) ↔ ∃ ps, Places r pool marks (a :: as) ps := by
  obtain ⟨i, hi, ha, rfl⟩ := mark?_eq_some h
  constructor
  · rintro ⟨ps, hps⟩
    exact ⟨i :: ps, hps.cons hi ha⟩
  · rintro ⟨ps, hps⟩
    cases ps with
    | nil => cases hps.partners
    | cons p ps => exact ⟨_, hps.exchange hr ha⟩

theorem allMark_iff (hr : Interchangeable r) (marks : Vector Bool pool.length) (as : List α) :
    allMark r pool marks as = true ↔ ∃ ps, Places r pool marks as ps := by
  induction as generalizing marks with
  | nil =>
    have hempty : Places r pool marks [] [] := ⟨List.nodup_nil, by simp, .nil⟩
    simpa [allMark] using ⟨_, hempty⟩
  | cons a as ih =>
    rw [allMark]
    cases hm : mark? r pool marks a with
    | some marks' => rw [← mark?_places hr as hm, ← ih]
    | none =>
      simp only [Bool.false_eq_true, false_iff, not_exists]
      intro ps hps
      cases ps with
      | nil => cases hps.partners
      | cons p ps =>
        have ha := (List.forall₂_cons.mp hps.partners).1
        rw [mark?_eq_none hm p (hps.free p (by simp))] at ha
        cases ha

/-- Without any mark a choice of places is an injection between positions. -/
theorem places_iff_embedding (as : List α) :
    (∃ ps, Places r pool (.replicate pool.length false) as ps) ↔
      ∃ e : Fin as.length ↪ Fin pool.length, ∀ i, r (as.get i) (pool.get (e i)) = true := by
  constructor
  · rintro ⟨ps, hps⟩
    obtain ⟨hlength, hget⟩ := List.forall₂_iff_get.mp hps.partners
    refine ⟨⟨fun i => ps.get (i.cast hlength), ?_⟩, fun i => hget i i.isLt _⟩
    exact hps.nodup.injective_get.comp (Fin.cast_injective hlength)
  · rintro ⟨e, he⟩
    refine ⟨List.ofFn e, List.nodup_ofFn.mpr e.injective, fun p _ => get_unmarked p, ?_⟩
    rw [List.forall₂_iff_get]
    refine ⟨by simp, ?_⟩
    intro i hi hi'
    simpa using he ⟨i, hi⟩

/-- The members at the positions without a mark. -/
def unmarked (pool : List β) (marks : Vector Bool pool.length) : List β :=
  ((List.finRange pool.length).filter (fun i => !marks.get i)).map pool.get

theorem unmarked_new (pool : List β) : unmarked pool (.replicate pool.length false) = pool := by
  have hall : (List.finRange pool.length).filter
      (fun i => !(Vector.replicate pool.length false).get i) = List.finRange pool.length := by
    apply List.filter_eq_self.mpr
    intro i _
    rw [get_unmarked, Bool.not_false]
  rw [unmarked, hall]
  exact pool.map_getElem_finRange

theorem take?_eq_erase [DecidableEq β] (p : β → Bool) (pool : List β) :
    take? p pool = (pool.find? p).map pool.erase := by
  induction pool with
  | nil => rfl
  | cons b rest ih =>
    rw [take?, ih]
    by_cases hb : p b = true
    · rw [if_pos hb, List.find?_cons_of_pos hb]
      simp
    · rw [if_neg hb, List.find?_cons_of_neg hb, Option.map_map]
      apply Option.map_congr
      intro c hc
      have hne : b ≠ c := fun he => hb (he ▸ List.find?_some hc)
      simp [hne]

/-- To mark a position is to take its member out of the members without a mark. -/
theorem take?_unmarked (marks : Vector Bool pool.length) (a : α) :
    take? (r a) (unmarked pool marks) = (mark? r pool marks a).map (unmarked pool) := by
  rw [unmarked, take?_map _ (fun i => r a (pool.get i)) _ _ (fun _ _ => rfl), take?_eq_erase,
    List.find?_filter, mark?]
  simp only [Bool.decide_and, Bool.decide_eq_true, Option.map_map]
  apply Option.map_congr
  intro i _
  have hnodup := (List.nodup_finRange pool.length).filter (fun i => !marks.get i)
  simp only [Function.comp_apply, unmarked]
  rw [hnodup.erase_eq_filter, List.filter_filter]
  congr 1
  apply List.filter_congr
  intro p _
  rw [Bool.eq_iff_iff]
  simpa using (get_mark marks i p).symm

theorem allMark_eq_embeds (marks : Vector Bool pool.length) (as : List α) :
    allMark r pool marks as = embeds r as (unmarked pool marks) := by
  induction as generalizing marks with
  | nil => rfl
  | cons a as ih =>
    rw [allMark, embeds, leftover?_cons, take?_unmarked]
    cases mark? r pool marks a with
    | none => rfl
    | some marks' => exact ih marks'

theorem allMark_new (r : α → β → Bool) (as : List α) (pool : List β) :
    allMark r pool (.replicate pool.length false) as = embeds r as pool := by
  rw [allMark_eq_embeds, unmarked_new]

theorem pairsUpByMarks_eq (r : α → β → Bool) (as : List α) (pool : List β) :
    pairsUpByMarks r as pool = pairsUp r as pool := by
  rw [pairsUpByMarks, allMark_new, pairsUp]

/-- The comparison of the lengths only saves time. -/
theorem embedsByMarks_eq (r : α → β → Bool) (as : List α) (pool : List β) :
    embedsByMarks r as pool = embeds r as pool := by
  rw [embedsByMarks, allMark_new]
  cases he : embeds r as pool with
  | false => rw [Bool.and_false]
  | true =>
    obtain ⟨left, hl⟩ := Option.isSome_iff_exists.mp he
    have hlength := length_leftover? hl
    rw [Bool.and_true, decide_eq_true_eq]
    omega

end Matching

open Matching

namespace Formula

theorem alike_interchangeable : Interchangeable alike := by
  intro a a' b b' hb hb' hab
  rw [alike_iff_unordered] at *
  rw [hab, ← hb, hb']

theorem termsEmbed_iff_subperm (sub sup : List Formula) :
    termsEmbed sub sup = true ↔ (sub.map unordered).Subperm (sup.map unordered) :=
  embeds_iff_subperm unordered unordered (fun t _ u => alike_iff_unordered t u)

theorem termsEmbed_iff_embedding (sub sup : List Formula) :
    termsEmbed sub sup = true ↔
      ∃ e : Fin sub.length ↪ Fin sup.length,
        ∀ i : Fin sub.length, (sub.get i).alike (sup.get (e i)) = true := by
  rw [termsEmbed, ← allMark_new, allMark_iff alike_interchangeable, places_iff_embedding]

theorem termsAlike_iff_equiv (left right : List Formula) :
    termsAlike left right = true ↔
      ∃ e : Fin left.length ≃ Fin right.length,
        ∀ i : Fin left.length, (left.get i).alike (right.get (e i)) = true := by
  rw [termsAlike, pairsUp, Bool.and_eq_true, beq_iff_eq]
  constructor
  · rintro ⟨hlength, hembeds⟩
    obtain ⟨e, he⟩ := (termsEmbed_iff_embedding left right).mp hembeds
    have hb := (Fintype.bijective_iff_injective_and_card e).mpr ⟨e.injective, by simp [hlength]⟩
    exact ⟨Equiv.ofBijective e hb, he⟩
  · rintro ⟨e, he⟩
    refine ⟨by simpa using Fintype.card_congr e, ?_⟩
    exact (termsEmbed_iff_embedding left right).mpr ⟨e.toEmbedding, he⟩

/-- Both tests see each operand up to rearrangement only, and neither sees the order. -/
theorem tests_congr {left left' right right' : List Formula}
    (hl : (left.map unordered).Perm (left'.map unordered))
    (hr : (right.map unordered).Perm (right'.map unordered)) :
    termsAlike left' right' = termsAlike left right ∧
      termsEmbed left' right' = termsEmbed left right := by
  constructor
  · rw [Bool.eq_iff_iff, termsAlike_iff, termsAlike_iff, hl.congr_left, hr.congr_right]
  · rw [Bool.eq_iff_iff, termsEmbed_iff_subperm, termsEmbed_iff_subperm, hl.subperm_right,
      hr.subperm_left]

theorem map_unordered_of_alike {ts us : List Formula}
    (h : List.Forall₂ (fun t u => t.alike u = true) ts us) :
    ts.map unordered = us.map unordered := by
  induction h with
  | nil => rfl
  | cons h _ ih => rw [List.map_cons, List.map_cons, (alike_iff_unordered _ _).mp h, ih]

/-- Two lists pass the test for alike operands exactly if a bijection between their positions pairs
alike operands, and the first passes the test for a part of the second exactly if an injection does.
Marking partners in the second list gives the same answers as taking them out of it. Neither test
notices when the lists are permuted or when alike formulas take the place of their operands. -/
theorem tests_find_every_matching (left right : List Formula) :
    (termsAlike left right = true ↔ ∃ e : Fin left.length ≃ Fin right.length,
      ∀ i : Fin left.length, (left.get i).alike (right.get (e i)) = true) ∧
    (termsEmbed left right = true ↔ ∃ e : Fin left.length ↪ Fin right.length,
      ∀ i : Fin left.length, (left.get i).alike (right.get (e i)) = true) ∧
    pairsUpByMarks alike left right = termsAlike left right ∧
    embedsByMarks alike left right = termsEmbed left right ∧
    (∀ left' right', left.Perm left' → right.Perm right' →
      termsAlike left' right' = termsAlike left right ∧
        termsEmbed left' right' = termsEmbed left right) ∧
    ∀ left' right', List.Forall₂ (fun t u => t.alike u = true) left left' →
      List.Forall₂ (fun t u => t.alike u = true) right right' →
      termsAlike left' right' = termsAlike left right ∧
        termsEmbed left' right' = termsEmbed left right := by
  refine ⟨termsAlike_iff_equiv left right, termsEmbed_iff_embedding left right,
    pairsUpByMarks_eq alike left right, embedsByMarks_eq alike left right, ?_, ?_⟩
  · intro left' right' hl hr
    exact tests_congr (hl.map unordered) (hr.map unordered)
  · intro left' right' hl hr
    exact tests_congr (.of_eq (map_unordered_of_alike hl)) (.of_eq (map_unordered_of_alike hr))

/-- `a || b` and `c` are alike `c` and `b || a`, so they are also alike that list in the other order
and with `a || b` in it. -/
theorem tests_find_every_matching_reordered :
    termsAlike [.or (.var "a") (.var "b"), .var "c"] [.var "c", .or (.var "b") (.var "a")] = true ∧
      [Formula.var "c", .or (.var "b") (.var "a")].Perm
        [.or (.var "b") (.var "a"), .var "c"] ∧
      termsAlike [.or (.var "a") (.var "b"), .var "c"]
        [.or (.var "b") (.var "a"), .var "c"] = true ∧
      List.Forall₂ (fun t u => t.alike u = true)
        [Formula.var "c", .or (.var "b") (.var "a")] [.var "c", .or (.var "a") (.var "b")] ∧
      termsAlike [.or (.var "a") (.var "b"), .var "c"]
        [.var "c", .or (.var "a") (.var "b")] = true := by
  have halike : (Formula.or (.var "b") (.var "a")).alike (.or (.var "a") (.var "b")) = true := by
    cbv
  have hstart : termsAlike [.or (.var "a") (.var "b"), .var "c"]
      [.var "c", .or (.var "b") (.var "a")] = true := by
    cbv
  have hperm : [Formula.var "c", .or (.var "b") (.var "a")].Perm
      [.or (.var "b") (.var "a"), .var "c"] := .swap _ _ _
  have hplaces : List.Forall₂ (fun t u => t.alike u = true)
      [Formula.var "c", .or (.var "b") (.var "a")] [.var "c", .or (.var "a") (.var "b")] :=
    .cons (by simp) (.cons halike .nil)
  have hrefl : List.Forall₂ (fun t u => t.alike u = true)
      [Formula.or (.var "a") (.var "b"), .var "c"] [.or (.var "a") (.var "b"), .var "c"] :=
    .cons (by cbv) (.cons (by simp) .nil)
  obtain ⟨_, _, _, _, permuted, replaced⟩ := tests_find_every_matching
    [.or (.var "a") (.var "b"), .var "c"] [.var "c", .or (.var "b") (.var "a")]
  refine ⟨hstart, hperm, ?_, hplaces, ?_⟩
  · rw [(permuted _ _ (.refl _) hperm).1, hstart]
  · rw [(replaced _ _ hrefl hplaces).1, hstart]

end Formula

end Sentential
