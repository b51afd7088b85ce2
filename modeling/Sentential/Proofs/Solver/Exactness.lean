import Mathlib.Data.List.Forall2
import Sentential.Proofs.Solver.Known
import Sentential.Solver.Faulty
import Sentential.Solver.Kind

/-!
# Truthful solvers

A solver is truthful about base rows when each of its answers says whether the
question and the base have a common model, in every state that a given
invariant admits. Only questions about given names count; the search needs that
there are fewer than 2³¹ of them, since it could not number more. Failing is kept
apart from answering wrongly: a truthful solver may fail, and a layer on top of it
stays truthful. The invariants hold of a new solver and are derived for all later
ones, whatever was asked before.
-/

set_option autoImplicit false

namespace Sentential

/-- Some valuation makes both tables true. -/
def Table.Compatible (base t : Table) : Prop :=
  ∃ v, base.holds v = true ∧ t.holds v = true

theorem Table.compatible_same (base t u : Table) (h : t.same u = true) :
    base.Compatible t ↔ base.Compatible u := by
  simp only [Compatible, same_models _ t u h]

section Layers

variable {σ : Type}

def Memo.Sound (Inv : σ → Prop) (base : Table) (m : Memo σ) : Prop :=
  Inv m.inner ∧ ∀ e ∈ m.entries, (e.2 = true ↔ base.Compatible e.1)

theorem Memo.lookup_sound (Inv : σ → Prop) (base : Table) (m : Memo σ) (h : m.Sound Inv base)
    (t : Table) (b : Bool) (hl : m.lookup t = some b) : b = true ↔ base.Compatible t := by
  obtain ⟨e, hf, rfl⟩ := Option.map_eq_some_iff.mp hl
  rw [h.2 e (List.mem_of_find?_eq_some hf)]
  have hs := List.find?_some hf
  exact Table.compatible_same base e.1 t hs

theorem Memo.store_sound (Inv : σ → Prop) (base : Table) (m : Memo σ) (h : m.Sound Inv base)
    (t : Table) (b : Bool) (hb : b = true ↔ base.Compatible t) : (m.store t b).Sound Inv base := by
  unfold store
  split
  · refine ⟨h.1, fun e he => ?_⟩
    rcases List.mem_append.mp he with he | he
    · exact h.2 e he
    · rw [List.mem_singleton.mp he]
      exact hb
  · exact h

def Layered.Sound (Inv : σ → Prop) (base : Table) : Layered σ → Prop
  | .bare s => Inv s
  | .remembering m => m.Sound Inv base

theorem Layered.ofCapacity_sound (Inv : σ → Prop) (base : Table) (s : σ) (hs : Inv s)
    (capacity : Option Nat) : (Layered.ofCapacity? s capacity).Sound Inv base := by
  cases capacity with
  | none => exact hs
  | some n => exact ⟨hs, by simp⟩

variable [Solver σ]

structure Truthful (names : List String) (Inv : σ → Prop) (base : Table) : Prop where
  answer : ∀ s t b, Inv s → t.names ⊆ names → (Solver.ask s t).1 = .ok b →
    (b = true ↔ base.Compatible t)
  next : ∀ s t, Inv s → t.names ⊆ names → Inv (Solver.ask s t).2

/-- The solver answers every question in every state. -/
def Unfailing (σ : Type) [Solver σ] : Prop :=
  ∀ (s : σ) t, ∃ b, (Solver.ask s t).1 = .ok b

/-- The answers to a sequence of questions, each asked of the solver that the one before left. -/
def replies (s : σ) : List Table → List (Except SolverError Bool)
  | [] => []
  | t :: ts => (Solver.ask s t).1 :: replies (Solver.ask s t).2 ts

/-- The solver after a sequence of questions. -/
def Solver.after (s : σ) (ts : List Table) : σ :=
  ts.foldl (fun s t => (Solver.ask s t).2) s

theorem Solver.after_append (s : σ) (ts us : List Table) :
    Solver.after s (ts ++ us) = Solver.after (Solver.after s ts) us :=
  List.foldl_append

theorem Solver.after_concat (s : σ) (ts : List Table) (t : Table) :
    Solver.after s (ts ++ [t]) = (Solver.ask (Solver.after s ts) t).2 :=
  Solver.after_append s ts [t]

/-- What every question preserves holds after every sequence of questions. -/
theorem Solver.after_invariant (P : σ → Prop) (step : ∀ s t, P s → P (Solver.ask s t).2) (s : σ)
    (hs : P s) (ts : List Table) : P (Solver.after s ts) := by
  induction ts generalizing s with
  | nil => exact hs
  | cons t ts ih => exact ih (Solver.ask s t).2 (step s t hs)

theorem replies_unfailing (hu : Unfailing σ) (s : σ) (ts : List Table) :
    ∃ bs : List Bool, replies s ts = bs.map .ok := by
  induction ts generalizing s with
  | nil => exact ⟨[], rfl⟩
  | cons t ts ih =>
    obtain ⟨b, hb⟩ := hu s t
    obtain ⟨bs, hbs⟩ := ih (Solver.ask s t).2
    refine ⟨b :: bs, ?_⟩
    rw [replies, hb, hbs]
    rfl

theorem replies_exact (names : List String) (Inv : σ → Prop) (base : Table)
    (ht : Truthful names Inv base) (s : σ) (hs : Inv s) (ts : List Table)
    (hn : ∀ t ∈ ts, t.names ⊆ names) (bs : List Bool) (h : replies s ts = bs.map .ok) :
    List.Forall₂ (fun b t => b = true ↔ base.Compatible t) bs ts := by
  induction ts generalizing s bs with
  | nil =>
    rw [List.map_eq_nil_iff.mp h.symm]
    exact .nil
  | cons t ts ih =>
    obtain ⟨b, bs, rfl, hb, hbs⟩ := List.map_eq_cons_iff.mp h.symm
    obtain ⟨ht', hts⟩ := List.forall_mem_cons.mp hn
    exact .cons (ht.answer s t b hs ht' hb.symm)
      (ih (Solver.ask s t).2 (ht.next s t hs ht') hts bs hbs.symm)

/-- What a memo does with a question: it answers from its entries, or passes the question on and
stores the answer, or passes the failure on. -/
theorem Memo.ask_cases (m : Memo σ) (t : Table) :
    (∃ b, m.lookup t = some b ∧ Solver.ask m t = (.ok b, m)) ∨
    (∃ b, (Solver.ask m.inner t).1 = .ok b ∧
      Solver.ask m t = (.ok b, { m with inner := (Solver.ask m.inner t).2 }.store t b)) ∨
    ∃ e, (Solver.ask m.inner t).1 = .error e ∧
      Solver.ask m t = (.error e, { m with inner := (Solver.ask m.inner t).2 }) := by
  cases hl : m.lookup t with
  | some b => exact .inl ⟨b, rfl, by simp only [Solver.ask, hl]⟩
  | none =>
    rcases ha : Solver.ask m.inner t with ⟨b | e, inner⟩
    · exact .inr (.inr ⟨_, rfl, by simp only [Solver.ask, hl, ha]⟩)
    · exact .inr (.inl ⟨_, rfl, by simp only [Solver.ask, hl, ha]⟩)

theorem Memo.truthful (names : List String) (Inv : σ → Prop) (base : Table)
    (h : Truthful names Inv base) : Truthful names (Memo.Sound Inv base) base where
  answer m t b hm hn hb := by
    rcases m.ask_cases t with ⟨c, hl, ha⟩ | ⟨c, hc, ha⟩ | ⟨e, _, ha⟩ <;> rw [ha] at hb <;> cases hb
    · exact m.lookup_sound Inv base hm t b hl
    · exact h.answer m.inner t b hm.1 hn hc
  next m t hm hn := by
    have hi := h.next m.inner t hm.1 hn
    rcases m.ask_cases t with ⟨c, _, ha⟩ | ⟨c, hc, ha⟩ | ⟨e, _, ha⟩ <;> rw [ha]
    · exact hm
    · exact store_sound Inv base { m with inner := (Solver.ask m.inner t).2 } ⟨hi, hm.2⟩ t c
        (h.answer m.inner t c hm.1 hn hc)
    · exact ⟨hi, hm.2⟩

theorem Memo.unfailing (h : Unfailing σ) : Unfailing (Memo σ) := by
  intro m t
  obtain ⟨c, hc⟩ := h m.inner t
  rcases m.ask_cases t with ⟨b, _, ha⟩ | ⟨b, _, ha⟩ | ⟨e, he, _⟩
  · exact ⟨b, by rw [ha]⟩
  · exact ⟨b, by rw [ha]⟩
  · rw [hc] at he
    cases he

theorem Layered.truthful (names : List String) (Inv : σ → Prop) (base : Table)
    (h : Truthful names Inv base) : Truthful names (Layered.Sound Inv base) base where
  answer s t b hs hn hb := by
    cases s with
    | bare s => exact h.answer s t b hs hn hb
    | remembering m => exact (Memo.truthful names Inv base h).answer m t b hs hn hb
  next s t hs hn := by
    cases s with
    | bare s => exact h.next s t hs hn
    | remembering m => exact (Memo.truthful names Inv base h).next m t hs hn

theorem Layered.unfailing (h : Unfailing σ) : Unfailing (Layered σ) := by
  intro s t
  cases s with
  | bare s => exact h s t
  | remembering m => exact Memo.unfailing h m t

def Faulty.Sound (Inv : σ → Prop) (s : Faulty σ) : Prop := Inv s.inner

/-- A call either fails and leaves the solver underneath as it was, or is passed on. -/
theorem Faulty.ask_cases (s : Faulty σ) (t : Table) :
    (∃ e, Solver.ask s t = (.error e, { s with calls := s.calls + 1 })) ∨
    Solver.ask s t = ((Solver.ask s.inner t).1,
      { s with calls := s.calls + 1, inner := (Solver.ask s.inner t).2 }) := by
  cases hf : s.schedule s.calls with
  | some e => exact .inl ⟨e, by simp only [Solver.ask, hf]⟩
  | none => exact .inr (by simp only [Solver.ask, hf])

/-- Scheduled failures take answers away and never change one. -/
theorem Faulty.truthful (names : List String) (Inv : σ → Prop) (base : Table)
    (h : Truthful names Inv base) : Truthful names (Faulty.Sound Inv) base where
  answer s t b hs hn hb := by
    rcases s.ask_cases t with ⟨e, ha⟩ | ha <;> rw [ha] at hb
    · cases hb
    · exact h.answer s.inner t b hs hn hb
  next s t hs hn := by
    rcases s.ask_cases t with ⟨e, ha⟩ | ha <;> rw [ha]
    · exact hs
    · exact h.next s.inner t hs hn

end Layers

theorem Table.compatible_withBase (base : Option Table) (t : Table) :
    Table.empty.Compatible (t.withBase base) ↔ (base.getD .empty).Compatible t := by
  cases base with
  | none => rfl
  | some b => simp [Compatible, withBase, holds_append]

namespace SingleShot

section Names

variable {names : List String} {base : Option Table}

/-- The solver has the rows of `base` as its base and has only been asked about given names. -/
def Over (names : List String) (base : Option Table) (s : SingleShot) : Prop :=
  ∃ earlier, Knows base earlier s ∧ ∀ t ∈ earlier, t.names ⊆ names

theorem ofTable_over (names : List String) (base : Option Table) :
    Over names base (ofTable? base) :=
  ⟨[], ofTable_knows base, by simp⟩

theorem pose_over (s : SingleShot) (t : Table) (h : Over names base s) (ht : t.names ⊆ names) :
    Over names base (s.pose t).2 := by
  obtain ⟨earlier, hk, he⟩ := h
  exact ⟨earlier ++ [t], pose_knows base earlier s t hk,
    List.forall_mem_append.mpr ⟨he, by simpa using ht⟩⟩

theorem numbering_subset (hbase : ∀ u ∈ base, u.names ⊆ names) (s : SingleShot) (t : Table)
    (h : Over names base s) (ht : t.names ⊆ names) : (s.numbering t).names ⊆ names := by
  obtain ⟨earlier, hk, he⟩ := h
  intro name hn
  obtain ⟨u, hu, hn⟩ := (mem_numbering hk t name).mp hn
  rcases mem_of_mem_seen hu with hu | hu | hu
  · exact hbase u hu hn
  · exact he u hu hn
  · rw [hu] at hn
    exact ht hn

theorem pose_satisfiable (hnames : Numberable names) (hbase : ∀ u ∈ base, u.names ⊆ names)
    (s : SingleShot) (t : Table) (h : Over names base s) (ht : t.names ⊆ names) :
    (s.pose t).1.satisfiable = true ↔ (base.getD .empty).Compatible t := by
  have hfits := numbering_subset hbase s t h ht
  obtain ⟨earlier, hk, he⟩ := h
  have hexact := (s.numbering t).satisfiable_clauses (hnames.length_lt (numbering_nodup hk t) hfits)
    (t.withBase base) (withBase_known hk t) (s.numbering t).last.toUInt32
  rw [pose_eq hk t, hexact, ← Table.compatible_withBase]
  simp [Table.Compatible]

theorem truthful (hnames : Numberable names) (base : Option Table)
    (hbase : ∀ u ∈ base, u.names ⊆ names) :
    Truthful names (Over names base) (base.getD .empty) where
  answer s t b hs ht hb := by
    have hb : (s.pose t).1.satisfiable = b := Except.ok.inj hb
    rw [← hb]
    exact pose_satisfiable hnames hbase s t hs ht
  next s t hs ht := pose_over s t hs ht

theorem unfailing : Unfailing SingleShot :=
  fun _ _ => ⟨_, rfl⟩

end Names

end SingleShot

/-- A solver over the search, with or without base rows and a memo, answers every sequence of
questions without failing. As long as fewer than 2³¹ names occur in the base and the questions, it
answers each question as if it were the first. -/
theorem layered_replies (base : Option Table) (capacity : Option Nat) (ts : List Table) :
    ∃ bs : List Bool,
      replies (Layered.ofCapacity? (SingleShot.ofTable? base) capacity) ts = bs.map .ok ∧
      (Numberable ((base.toList ++ ts).flatMap Table.names) →
        List.Forall₂ (fun b t => b = true ↔ (base.getD .empty).Compatible t) bs ts) := by
  obtain ⟨bs, hbs⟩ := replies_unfailing (Layered.unfailing SingleShot.unfailing)
    (Layered.ofCapacity? (SingleShot.ofTable? base) capacity) ts
  refine ⟨bs, hbs, fun hnames => ?_⟩
  have hsub := Table.names_subset_flatMap (base.toList ++ ts)
  have ht := SingleShot.truthful hnames base
    (fun u hu => hsub u (by simp [Option.mem_def.mp hu]))
  exact replies_exact _ _ _ (Layered.truthful _ _ _ ht) _
    (Layered.ofCapacity_sound _ _ _ (SingleShot.ofTable_over _ base) capacity) ts
    (fun t ht => hsub t (List.mem_append_right _ ht)) bs hbs

end Sentential
