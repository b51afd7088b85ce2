import Sentential.Proofs.Disjunction.History

/-!
# Models of a simplified disjunction

A formula is left out or takes the place of others only on an answer of the
solver, and every answer that is given is exact. A failure keeps both sides. So
whichever calls fail, the kept formulas allow the same valuations as all of
them, among those that make the base true. A history of operations keeps the
queue in this state, with the memo and the auxiliary names that earlier
operations left behind. The number that the converter has got to at the end
confines the names of all questions before, so the condition that they can be
numbered is about the whole history.
-/

set_option autoImplicit false

namespace Sentential

/-- The second formula is true wherever the first one is, among the valuations that `P` admits. -/
def Implies (P : Valuation → Prop) (f g : Formula) : Prop :=
  ∀ v, P v → f.holds v = true → g.holds v = true

/-- The first question of a comparison: the later formula allows something new. -/
theorem gained_iff (P : Valuation → Prop) (f g : Formula) :
    (∃ v, P v ∧ (Formula.and (.neg f) g).holds v = true) ↔ ¬Implies P g f := by
  simp [Implies, Formula.holds, Connective.apply, and_comm]

/-- The second question of a comparison: the later formula would lose something. -/
theorem lost_iff (P : Valuation → Prop) (f g : Formula) :
    (∃ v, P v ∧ (Formula.and f (.neg g)).holds v = true) ↔ ¬Implies P f g := by
  simp [Implies, Formula.holds, Connective.apply]

/-- What a comparison of `g` with `f` before it tells. -/
def Relevance.Tells (P : Valuation → Prop) (f g : Formula) : Relevance → Prop
  | .previous => Implies P g f
  | .current => ¬Implies P g f ∧ Implies P f g
  | .both => ¬Implies P g f ∧ ¬Implies P f g

namespace SimplifyingQueue

section Comparison

variable {σ : Type} {words : List String} {limit : Nat} {Inv : σ → Prop} {base : Table}
  {P : Valuation → Prop}

/-- The running disjunction is that of the kept formulas, and it allows what the formulas seen so
far allow. -/
structure Progress.Covers (words : List String) (Inv : σ → Prop) (P : Valuation → Prop)
    (seen : List Formula) (p : Progress σ) : Prop where
  oracle : p.oracle.Sound Inv 1
  confined : p.previous.Confined words
  kept : ∀ v, p.kept.Allows v ↔ p.previous.holds v = true
  occupied : ¬p.kept.Vacant
  models : ∀ v, P v → (p.previous.holds v = true ↔ ∃ f ∈ seen, f.holds v = true)

theorem single_covers (o : Oracle σ) (ho : o.Sound Inv 1) (f : Formula) (hf : f.Confined words)
    (hc : f.constant? = none) (seen : List Formula)
    (hm : ∀ v, P v → (f.holds v = true ↔ ∃ g ∈ seen, g.holds v = true)) :
    Progress.Covers words Inv P seen ⟨o, f, Queue.empty.add f⟩ where
  oracle := ho
  confined := hf
  kept v := by simp [Queue.add_allows, Queue.empty_allows]
  occupied := by
    rw [Queue.add_vacant]
    rintro ⟨_, rfl⟩
    cases hc
  models := hm

theorem joined_covers (seen : List Formula) (p : Progress σ) (h : p.Covers words Inv P seen)
    (o : Oracle σ) (ho : o.Sound Inv 1) (f : Formula) (hf : f.Confined words) :
    Progress.Covers words Inv P (seen ++ [f]) ⟨o, .or p.previous f, p.kept.add f⟩ where
  oracle := ho
  confined := h.confined.bin _ hf
  kept v := by rw [Queue.add_allows, h.kept, or_holds]
  occupied := by
    rw [Queue.add_vacant]
    exact fun hv => h.occupied hv.1
  models v hv := by
    rw [or_holds, h.models v hv]
    simp [or_and_right, exists_or]

variable [Solver σ]

/-- A comparison that succeeds tells exactly which of the two formulas implies the other, among the
valuations that the base admits. -/
theorem relevance_exact (ht : Truthful (words ++ auxiliaries limit) Inv base)
    (hs : Stands base P 1) (o : Oracle σ) (ho : o.Sound Inv 1) (f g : Formula)
    (hf : f.Confined words) (hg : g.Confined words)
    (hl : (relevance o f g).2.converter.next ≤ limit) :
    (relevance o f g).2.Sound Inv 1 ∧
    ∀ r, (relevance o f g).1 = .ok r → r.Tells P f g := by
  have hgained := hf.neg.bin .and hg
  have hlost := hf.bin .and hg.neg
  have hnames := o.question_names ho.next _ hgained (Nat.le_trans (first_next o f g) hl)
  have hnew := o.satisfiable_sound ht ho (.and (.neg f) g) hnames
  have hgain := o.satisfiable_answer ht hs ho (.and (.neg f) g) hgained.unreserved hnames
  simp only [gained_iff] at hgain
  rcases relevance_cases o f g with ⟨e, _, hr⟩ | ⟨hfirst, hr⟩ | ⟨hfirst, hr⟩ <;> rw [hr] at hl ⊢
  · exact ⟨hnew, by simp⟩
  · refine ⟨hnew, fun r hok => ?_⟩
    cases hok
    simpa [Relevance.Tells] using hgain false hfirst
  · have hnames' := Oracle.question_names _ hnew.next _ hlost hl
    have hend := Oracle.satisfiable_sound ht _ hnew (.and f (.neg g)) hnames'
    have hloss := Oracle.satisfiable_answer ht hs _ hnew (.and f (.neg g)) hlost.unreserved hnames'
    simp only [lost_iff] at hloss
    have hnews : ¬Implies P g f := (hgain true hfirst).mp rfl
    refine ⟨hend, fun r hok => ?_⟩
    rcases hsecond : (Oracle.satisfiable (o.satisfiable (.and (.neg f) g)).2
      (.and f (.neg g))).1 with e | c <;> rw [hsecond] at hok hloss <;> cases hok
    cases c with
    | false => exact ⟨hnews, by simpa using hloss false rfl⟩
    | true => exact ⟨hnews, (hloss true rfl).mp rfl⟩

theorem consider_covers (ht : Truthful (words ++ auxiliaries limit) Inv base)
    (hs : Stands base P 1) (subject : Option String) (seen : List Formula) (p : Progress σ)
    (h : p.Covers words Inv P seen) (f : Formula) (hf : f.Confined words)
    (hc : f.constant? = none)
    (hl : (consider subject p f).value.oracle.converter.next ≤ limit) :
    (consider subject p f).value.Covers words Inv P (seen ++ [f]) := by
  rw [consider_oracle] at hl
  obtain ⟨ho, htells⟩ := relevance_exact ht hs p.oracle h.oracle p.previous f h.confined hf hl
  have hmodels (v : Valuation) (hv : P v) :
      (∃ g ∈ seen ++ [f], g.holds v = true) ↔ p.previous.holds v = true ∨ f.holds v = true := by
    rw [h.models v hv]
    simp [or_and_right, exists_or]
  unfold consider
  split <;> rename_i o hr <;> rw [hr] at ho htells
  · have hdrop : Implies P f p.previous := htells _ rfl
    refine ⟨ho, h.confined, h.kept, h.occupied, fun v hv => ?_⟩
    rw [hmodels v hv, or_iff_left_of_imp (hdrop v hv)]
  · have hreplace : Implies P p.previous f := (htells _ rfl).2
    refine single_covers o ho f hf hc _ (fun v hv => ?_)
    rw [hmodels v hv, or_iff_right_of_imp (hreplace v hv)]
  -- neither side implies the other, or the solver failed: the formula is kept beside the others
  · exact joined_covers seen p h o ho f hf
  · exact joined_covers seen p h o ho f hf

theorem considered_covers (ht : Truthful (words ++ auxiliaries limit) Inv base)
    (hs : Stands base P 1) (subject : Option String) (seen : List Formula) (p : Progress σ)
    (h : p.Covers words Inv P seen) (fs : List Formula)
    (hfs : ∀ f ∈ fs, f.Confined words ∧ f.constant? = none)
    (hl : (fs.foldlM (consider subject) p).value.oracle.converter.next ≤ limit) :
    (fs.foldlM (consider subject) p).value.Covers words Inv P (seen ++ fs) := by
  induction fs generalizing seen p with
  | nil => simpa using h
  | cons f fs ih =>
    obtain ⟨hf, hrest⟩ := List.forall_mem_cons.mp hfs
    rw [List.foldlM_cons, Logged.value_bind] at hl ⊢
    have hstep := considered_next subject (consider subject p f).value fs
    rw [List.append_cons]
    exact ih (seen ++ [f]) _
      (consider_covers ht hs subject seen p h f hf.1 hf.2 (Nat.le_trans hstep hl)) hrest hl

/-- The simplified disjunction is true where the plain one is, as far as the base admits. -/
theorem simplified_holds (ht : Truthful (words ++ auxiliaries limit) Inv base)
    (hs : Stands base P 1) (q : SimplifyingQueue σ) (hq : q.oracle.Sound Inv 1)
    (hp : ∀ f ∈ q.queue.pending, f.Confined words ∧ f.constant? = none) (subject : Option String)
    (hl : (q.disjunction subject).value.2.oracle.converter.next ≤ limit) :
    (q.disjunction subject).value.2.oracle.Sound Inv 1 ∧
    ∀ v, P v → ((q.disjunction subject).value.1.holds v = true ↔
      q.queue.Allows v ∨ q.queue.Vacant) := by
  by_cases hc : q.queue.certain = true
  · simpa [disjunction, hc, reset, Formula.holds, Queue.Allows] using hq
  · have hc : q.queue.certain = false := by simpa using hc
    cases hpending : q.queue.pending with
    | nil =>
      simpa [disjunction, hc, hpending, reset, Formula.holds, Queue.Vacant] using hq
    | cons first rest =>
      rw [hpending, List.forall_mem_cons] at hp
      simp only [disjunction, hc, hpending, Bool.false_eq_true, if_false, Logged.value_bind,
        Logged.value_pure] at hl ⊢
      have hstart := single_covers (P := P) q.oracle hq first hp.1.1 hp.1.2 [first]
        (fun v _ => by simp)
      have hend := considered_covers ht hs subject [first] _ hstart rest hp.2 hl
      refine ⟨hend.oracle, fun v hv => ?_⟩
      -- without a kept formula the result would be true everywhere
      rw [Queue.disjunction_holds, hend.kept, or_iff_left hend.occupied, hend.models v hv]
      simp [Queue.Allows, Queue.Vacant, hc, hpending]

end Comparison

section History

variable {σ : Type} {words : List String} {limit : Nat} {Inv : σ → Prop} {base : Table}
  {P : Valuation → Prop}

structure Sound (words : List String) (Inv : σ → Prop) (added : List Formula)
    (q : SimplifyingQueue σ) : Prop where
  oracle : q.oracle.Sound Inv 1
  queue : q.queue.Collects added
  confined : ∀ f ∈ added, f.Confined words

theorem Sound.pending {added : List Formula} {q : SimplifyingQueue σ}
    (h : q.Sound words Inv added) :
    ∀ f ∈ q.queue.pending, f.Confined words ∧ f.constant? = none :=
  fun f hf => ⟨h.confined f (h.queue.pending f hf).2, (h.queue.pending f hf).1⟩

variable [Solver σ]

theorem step_sound (ht : Truthful (words ++ auxiliaries limit) Inv base) (hs : Stands base P 1)
    (q : SimplifyingQueue σ) (added : List Formula) (h : q.Sound words Inv added) (a : Action)
    (ha : ∀ f ∈ a.formulas, f.Confined words) (hl : (q.step a).oracle.converter.next ≤ limit) :
    (q.step a).Sound words Inv (a.collected added) := by
  cases a with
  | add f =>
    exact ⟨h.oracle, Queue.add_collects _ added h.queue f,
      List.forall_mem_append.mpr ⟨h.confined, ha⟩⟩
  | addAll fs =>
    exact ⟨h.oracle, Queue.addAll_collects _ added h.queue fs,
      List.forall_mem_append.mpr ⟨h.confined, ha⟩⟩
  | reset => exact ⟨h.oracle, Queue.empty_collects, by simp [Action.collected]⟩
  | disjunction subject =>
    have ho := (simplified_holds ht hs q h.oracle h.pending subject hl).1
    refine ⟨ho, ?_, by simp [Action.collected]⟩
    rw [step, disjunction_queue]
    exact Queue.empty_collects

end History

end SimplifyingQueue

end Sentential
