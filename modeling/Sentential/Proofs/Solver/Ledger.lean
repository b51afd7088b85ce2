import Mathlib.Data.List.Induction
import Sentential.Proofs.Solver.Exactness

/-!
# What a memo stores

A memo adds at most one entry for each question, at the end, and only for a
question that it passed on and that was answered. So its entries are those of
earlier questions in their order, no two of them for the same table, and a
capacity above zero is never exceeded. The solver behind the memo is arbitrary and
may fail on any call. Which questions reach it is read off a record that is kept
between the two.
-/

set_option autoImplicit false

namespace Sentential

theorem Table.same_trans (t u w : Table) (ht : t.same u = true) (hu : u.same w = true) :
    t.same w = true := by
  rw [same, beq_iff_eq] at *
  exact ht.trans hu

namespace Memo

section Entries

variable {σ : Type}

/-- An answer is stored for a table that is the same. -/
def Stores (m : Memo σ) (t : Table) : Prop :=
  ∃ e ∈ m.entries, e.1.same t = true

theorem lookup_eq_none_iff (m : Memo σ) (t : Table) : m.lookup t = none ↔ ¬m.Stores t := by
  rw [lookup, Option.map_eq_none_iff, List.find?_eq_none, Stores]
  simp only [not_exists, not_and]

/-- No two entries are for the same table. -/
def Distinct (m : Memo σ) : Prop :=
  m.entries.Pairwise (fun d e => d.1.same e.1 = false)

/-- Where no table has two entries, the first one that is found is the only one. -/
theorem Distinct.lookup {m : Memo σ} (h : m.Distinct) (e : Table × Bool) (he : e ∈ m.entries)
    (t : Table) (hs : e.1.same t = true) : m.lookup t = some e.2 := by
  rw [Memo.lookup, Option.map_eq_some_iff]
  obtain ⟨before, after, hm⟩ := List.append_of_mem he
  rw [Distinct, hm, List.pairwise_append] at h
  have hnone : before.find? (fun entry => entry.1.same t) = none := by
    rw [List.find?_eq_none]
    intro d hd hdt
    have hde := Table.same_trans d.1 t e.1 hdt (Table.same_symm e.1 t hs)
    rw [h.2.2 d hd e (by simp)] at hde
    cases hde
  refine ⟨e, ?_, rfl⟩
  rw [hm, List.find?_append, hnone, Option.none_or]
  exact List.find?_cons_of_pos hs

/-- The capacity is not exceeded; zero is no limit. -/
def Bounded (m : Memo σ) : Prop :=
  0 < m.capacity → m.count ≤ m.capacity

theorem hasRoom_iff (m : Memo σ) :
    m.hasRoom = true ↔ m.capacity = 0 ∨ m.count < m.capacity := by
  simp [hasRoom]

end Entries

section Questions

variable {σ : Type} [Solver σ]

/-- The entry that a question adds, if it adds one. -/
def gained (m : Memo σ) (t : Table) : Option (Table × Bool) :=
  match m.lookup t, (Solver.ask m.inner t).1 with
  | none, .ok b => if m.hasRoom then some (t, b) else none
  | _, _ => none

theorem gained_eq_some_iff (m : Memo σ) (t : Table) (e : Table × Bool) :
    m.gained t = some e ↔ ¬m.Stores t ∧ (Solver.ask m.inner t).1 = .ok e.2 ∧ e.1 = t ∧
      (m.capacity = 0 ∨ m.count < m.capacity) := by
  obtain ⟨u, b⟩ := e
  rw [← lookup_eq_none_iff, ← hasRoom_iff, gained]
  split
  · rename_i c hl ha
    rw [ha]
    by_cases hr : m.hasRoom = true
    · simp [hl, hr, and_comm, eq_comm]
    · simp [hr]
  · rename_i hno
    simp only [reduceCtorEq, false_iff]
    rintro ⟨hl, ha, _⟩
    exact hno b hl ha

theorem ask_hit (m : Memo σ) (t : Table) (b : Bool) (h : m.lookup t = some b) :
    Solver.ask m t = (.ok b, m) := by
  simp only [Solver.ask, h]

theorem ask_miss (m : Memo σ) (t : Table) (h : m.lookup t = none) :
    Solver.ask m t = ((Solver.ask m.inner t).1,
      ⟨(Solver.ask m.inner t).2, m.capacity, m.entries ++ (m.gained t).toList⟩) := by
  rcases ha : Solver.ask m.inner t with ⟨e | b, inner⟩
  · simp [Solver.ask, h, ha, gained]
  · by_cases hr : m.hasRoom = true
    · have hr' : Memo.hasRoom { m with inner } = true := hr
      simp [Solver.ask, h, ha, gained, store, hr, hr']
    · have hr' : ¬Memo.hasRoom { m with inner } = true := hr
      simp [Solver.ask, h, ha, gained, store, hr, hr']

theorem capacity_ask (m : Memo σ) (t : Table) : (Solver.ask m t).2.capacity = m.capacity := by
  cases h : m.lookup t with
  | some b => rw [ask_hit m t b h]
  | none => rw [ask_miss m t h]

/-- Entries are only ever added, and at the end. -/
theorem entries_ask (m : Memo σ) (t : Table) :
    (Solver.ask m t).2.entries = m.entries ++ (m.gained t).toList := by
  cases h : m.lookup t with
  | some b =>
    rw [ask_hit m t b h]
    simp [gained, h]
  | none => rw [ask_miss m t h]

theorem distinct_ask (m : Memo σ) (t : Table) (h : m.Distinct) : (Solver.ask m t).2.Distinct := by
  rw [Distinct, entries_ask]
  cases hg : m.gained t with
  | none => simpa [Distinct] using h
  | some e =>
    obtain ⟨hn, _, rfl, _⟩ := (gained_eq_some_iff m t e).mp hg
    rw [Option.toList_some, List.pairwise_append]
    refine ⟨h, List.pairwise_singleton _ e, ?_⟩
    intro d hd e' he
    rw [List.mem_singleton.mp he]
    exact Bool.eq_false_iff.mpr (fun hs => hn ⟨d, hd, hs⟩)

theorem bounded_ask (m : Memo σ) (t : Table) (h : m.Bounded) : (Solver.ask m t).2.Bounded := by
  rw [Bounded, capacity_ask, count, entries_ask]
  intro hc
  cases hg : m.gained t with
  | none => simpa [count] using h hc
  | some e =>
    obtain ⟨_, _, _, hr⟩ := (gained_eq_some_iff m t e).mp hg
    rw [count] at hr
    rw [Option.toList_some, List.length_append, List.length_singleton]
    omega

section Run

variable (m : Memo σ) (earlier : List Table)

theorem capacity_after : (Solver.after m earlier).capacity = m.capacity := by
  refine Solver.after_invariant (fun n => n.capacity = m.capacity) ?_ m rfl earlier
  intro n t hn
  rw [capacity_ask, hn]

theorem entries_after_kept : m.entries <+: (Solver.after m earlier).entries := by
  refine Solver.after_invariant (fun n => m.entries <+: n.entries) ?_ m (List.prefix_refl _) earlier
  intro n t hn
  rw [entries_ask]
  exact hn.trans (List.prefix_append _ _)

/-- An entry that was not there at the start was added by a question about its table. -/
theorem mem_entries_after (e : Table × Bool) :
    e ∈ (Solver.after m earlier).entries ↔ e ∈ m.entries ∨
      ∃ before rest, earlier = before ++ e.1 :: rest ∧
        (Solver.after m before).gained e.1 = some e := by
  induction earlier using List.reverseRecOn with
  | nil => simp [Solver.after]
  | append_singleton ts t ih =>
    rw [Solver.after_concat, entries_ask, List.mem_append, ih, Option.mem_toList, or_assoc]
    refine or_congr_right ⟨?_, ?_⟩
    · rintro (⟨before, rest, rfl, hg⟩ | hg)
      · exact ⟨before, rest ++ [t], by simp, hg⟩
      · obtain ⟨_, _, rfl, _⟩ := (gained_eq_some_iff _ t e).mp hg
        exact ⟨ts, [], rfl, hg⟩
    · rintro ⟨before, rest, hs, hg⟩
      rcases List.eq_nil_or_concat rest with rfl | ⟨init, last, rfl⟩
      · obtain ⟨rfl, hl⟩ := List.append_inj' hs rfl
        cases hl
        exact .inr hg
      · rw [List.concat_eq_append, ← List.cons_append, ← List.append_assoc] at hs
        obtain ⟨rfl, _⟩ := List.append_inj' hs rfl
        exact .inl ⟨before, init, rfl, hg⟩

end Run

end Questions

end Memo

/-- A solver with the questions that have reached it. -/
structure Recorded (σ : Type) where
  solver : σ
  asked : List Table := []

variable {σ : Type} [Solver σ]

instance : Solver (Recorded σ) where
  ask s t := ((Solver.ask s.solver t).1, ⟨(Solver.ask s.solver t).2, s.asked ++ [t]⟩)

@[simp] theorem Recorded.asked_ask (s : Recorded σ) (t : Table) :
    (Solver.ask s t).2.asked = s.asked ++ [t] := rfl

/-- The recorded questions lead from `s` to the solver. -/
def Recorded.From (s : σ) (r : Recorded σ) : Prop :=
  r.solver = Solver.after s r.asked

theorem Recorded.from_ask (s : σ) (r : Recorded σ) (t : Table) (h : r.From s) :
    (Solver.ask r t).2.From s := by
  show (Solver.ask r.solver t).2 = Solver.after s (r.asked ++ [t])
  rw [Solver.after_concat, h]

namespace Memo

theorem inner_ask_from (s : σ) (m : Memo (Recorded σ)) (t : Table) (h : m.inner.From s) :
    (Solver.ask m t).2.inner.From s := by
  cases hl : m.lookup t with
  | some b => rwa [ask_hit m t b hl]
  | none =>
    rw [ask_miss m t hl]
    exact Recorded.from_ask s m.inner t h

/-- A new memo in front of `s`, with a record of the questions that it passes on. -/
def watching (s : σ) (capacity : Nat) : Memo (Recorded σ) :=
  { inner := { solver := s }, capacity }

/-- The memo after a sequence of questions. -/
def watched (s : σ) (capacity : Nat) (earlier : List Table) : Memo (Recorded σ) :=
  Solver.after (watching s capacity) earlier

/-- The memo without the record. -/
def unwatched (m : Memo (Recorded σ)) : Memo σ :=
  ⟨m.inner.solver, m.capacity, m.entries⟩

/-- The record changes nothing about the memo. -/
theorem ask_unwatched (m : Memo (Recorded σ)) (t : Table) :
    Solver.ask m.unwatched t = ((Solver.ask m t).1, (Solver.ask m t).2.unwatched) := by
  have hg : m.unwatched.gained t = m.gained t := rfl
  cases hl : m.lookup t with
  | some b => rw [ask_hit m t b hl, ask_hit m.unwatched t b hl]
  | none =>
    rw [ask_miss m t hl, ask_miss m.unwatched t hl, hg]
    rfl

theorem after_unwatched (m : Memo (Recorded σ)) (earlier : List Table) :
    Solver.after m.unwatched earlier = (Solver.after m earlier).unwatched := by
  induction earlier using List.reverseRecOn with
  | nil => rfl
  | append_singleton ts t ih => rw [Solver.after_concat, Solver.after_concat, ih, ask_unwatched]

/-- What a memo does with a question. -/
structure Serves (m : Memo (Recorded σ)) (t : Table) : Prop where
  passedOn : (Solver.ask m t).2.inner.asked = m.inner.asked ++ [t] ↔ ¬m.Stores t
  keptBack : (Solver.ask m t).2.inner.asked = m.inner.asked ↔ m.Stores t
  hit : ∀ e ∈ m.entries, e.1.same t = true → (Solver.ask m t).1 = .ok e.2
  miss : ¬m.Stores t → (Solver.ask m t).1 = (Solver.ask m.inner.solver t).1
  stored : ∀ e, (Solver.ask m t).2.entries = m.entries ++ [e] ↔
    ¬m.Stores t ∧ (Solver.ask m.inner.solver t).1 = .ok e.2 ∧ e.1 = t ∧
      (m.capacity = 0 ∨ m.count < m.capacity)
  unchanged : (¬∃ e, (Solver.ask m t).2.entries = m.entries ++ [e]) →
    (Solver.ask m t).2.entries = m.entries
  failed : ∀ e, (Solver.ask m t).1 = .error e → (Solver.ask m t).2.entries = m.entries

theorem entries_ask_eq_append_iff {τ : Type} [Solver τ] (m : Memo τ) (t : Table)
    (e : Table × Bool) : (Solver.ask m t).2.entries = m.entries ++ [e] ↔ m.gained t = some e := by
  rw [entries_ask, List.append_cancel_left_eq]
  cases m.gained t <;> simp

theorem gained_of_failed {τ : Type} [Solver τ] (m : Memo τ) (t : Table) (e : SolverError)
    (h : (Solver.ask m t).1 = .error e) : m.gained t = none := by
  cases hl : m.lookup t with
  | some b =>
    rw [ask_hit m t b hl] at h
    cases h
  | none =>
    rw [ask_miss m t hl] at h
    dsimp only at h
    simp only [gained, hl, h]

theorem serves (m : Memo (Recorded σ)) (hd : m.Distinct) (t : Table) : m.Serves t where
  passedOn := by
    rw [← lookup_eq_none_iff]
    cases hl : m.lookup t with
    | some b => simp [ask_hit m t b hl]
    | none => simp [ask_miss m t hl]
  keptBack := by
    rw [← not_iff_not, ← lookup_eq_none_iff]
    cases hl : m.lookup t with
    | some b => simp [ask_hit m t b hl]
    | none => simp [ask_miss m t hl]
  hit e he hs := by rw [ask_hit m t e.2 (hd.lookup e he t hs)]
  miss hn := by
    rw [ask_miss m t ((lookup_eq_none_iff m t).mpr hn)]
    rfl
  stored e := by
    rw [entries_ask_eq_append_iff]
    exact gained_eq_some_iff m t e
  unchanged hn := by
    rw [entries_ask]
    cases hg : m.gained t with
    | none => simp
    | some e => exact absurd ⟨e, (entries_ask_eq_append_iff m t e).mpr hg⟩ hn
  failed e he := by
    rw [entries_ask, gained_of_failed m t e he]
    simp

/-- A memo in front of a solver that may fail at will passes on the questions about tables that it
has not stored, and no others. It answers from the one entry for the same table, hands on answers
and failures as they come, and stores an answer that it was given while there is room. At any time
its entries are those that earlier questions added, no two for the same table and no more than the
capacity allows; they stay as they are in all that follows, and the solver behind the memo is where
the questions that were passed on have led it. All this is so of the memo without the record. -/
theorem memo_keeps_its_books (s : σ) (capacity : Nat) (earlier : List Table) :
    (∀ t, (watched s capacity earlier).Serves t) ∧
    (∀ e, e ∈ (watched s capacity earlier).entries ↔
      ∃ before rest, earlier = before ++ e.1 :: rest ∧
        (Solver.ask (watched s capacity before) e.1).2.entries =
          (watched s capacity before).entries ++ [e]) ∧
    (∀ later, (watched s capacity earlier).entries <+:
      (watched s capacity (earlier ++ later)).entries) ∧
    (watched s capacity earlier).entries.Pairwise (fun d e => d.1.same e.1 = false) ∧
    (watched s capacity earlier).capacity = capacity ∧
    (0 < capacity → (watched s capacity earlier).count ≤ capacity) ∧
    (watched s capacity earlier).inner.solver =
      Solver.after s (watched s capacity earlier).inner.asked ∧
    (watched s capacity earlier).unwatched = Solver.after { inner := s, capacity } earlier := by
  have hcapacity : (watched s capacity earlier).capacity = capacity := capacity_after _ earlier
  have hdistinct : (watched s capacity earlier).Distinct :=
    Solver.after_invariant Distinct distinct_ask (watching s capacity) .nil earlier
  have hbounded : (watched s capacity earlier).Bounded :=
    Solver.after_invariant Bounded bounded_ask (watching s capacity) (fun _ => Nat.zero_le _)
      earlier
  have hfrom : (watched s capacity earlier).inner.From s :=
    Solver.after_invariant (fun m : Memo (Recorded σ) => m.inner.From s) (inner_ask_from s)
      (watching s capacity) rfl earlier
  refine ⟨serves _ hdistinct, ?_, ?_, hdistinct, hcapacity, ?_, hfrom, ?_⟩
  · intro e
    simp only [entries_ask_eq_append_iff]
    rw [watched, mem_entries_after]
    exact or_iff_right (List.not_mem_nil)
  · intro later
    rw [watched, watched, Solver.after_append]
    exact entries_after_kept _ later
  · rwa [Bounded, hcapacity] at hbounded
  · exact (after_unwatched (watching s capacity) earlier).symm

/-- A solver whose first call fails. -/
def flaky : Faulty SingleShot :=
  { inner := {}, schedule := fun n => if n = 0 then some .timeout else none }

/-- The failure is not remembered, so the question is passed on again. The answer to it takes the
only place there is, and the third time it is found there. -/
theorem memo_keeps_its_books_retried :
    (watched flaky 1 [⟨[[]]⟩]).entries = [] ∧
      (⟨[[]]⟩, false) ∈ (watched flaky 1 [⟨[[]]⟩, ⟨[[]]⟩]).entries ∧
      (Solver.ask (watched flaky 1 [⟨[[]]⟩, ⟨[[]]⟩]) ⟨[[]]⟩).1 = .ok false ∧
      0 < 1 ∧ (watched flaky 1 [⟨[[]]⟩, ⟨[[]]⟩, .empty]).count ≤ 1 := by
  have hstored : (⟨[[]]⟩, false) ∈ (watched flaky 1 [⟨[[]]⟩, ⟨[[]]⟩]).entries := by decide +kernel
  obtain ⟨hserves, _⟩ := memo_keeps_its_books flaky 1 [⟨[[]]⟩, ⟨[[]]⟩]
  obtain ⟨_, _, _, _, _, hbounded, _⟩ := memo_keeps_its_books flaky 1 [⟨[[]]⟩, ⟨[[]]⟩, .empty]
  exact ⟨by decide +kernel, hstored, (hserves ⟨[[]]⟩).hit _ hstored (by decide +kernel),
    Nat.one_pos, hbounded Nat.one_pos⟩

end Memo

end Sentential
