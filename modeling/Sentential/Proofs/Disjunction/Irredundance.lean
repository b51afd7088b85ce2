import Sentential.Proofs.Disjunction.Balance
import Sentential.Proofs.Formula.Chain

/-!
# No superfluous term in a simplified disjunction

A formula is kept beside others only if the solver found a valuation that it adds
and one that it lacks. The solver is asked about the running disjunction and not
about the kept terms, so the argument needs that the two are the same formula: the
kept terms, nested to the left. A formula that takes the place of all kept terms
starts the list anew, and then there is nothing before it that it could be compared
with.

That the kept terms are some of the queued ones, in their order, needs no correct
answer. For the rest the solver must not fail, since a failure keeps a formula without
a reason, and it must be able to number the names that it is asked about. With a base,
implications are understood among the valuations that make the base true.
-/

set_option autoImplicit false

namespace Sentential

/-- From the second one on, no term implies the disjunction of the terms before it or is implied by
that disjunction. -/
def Irredundant (P : Valuation → Prop) (terms : List Formula) : Prop :=
  ∀ j t, 0 < j → terms[j]? = some t →
    ¬Implies P t (Connective.or.join (terms.take j)) ∧
    ¬Implies P (Connective.or.join (terms.take j)) t

theorem Irredundant.append {P : Valuation → Prop} {terms : List Formula} (h : Irredundant P terms)
    {f : Formula} (hnew : ¬Implies P f (Connective.or.join terms))
    (hlost : ¬Implies P (Connective.or.join terms) f) : Irredundant P (terms ++ [f]) := by
  intro j t hj ht
  rcases Nat.lt_or_ge j terms.length with hlt | hge
  · rw [List.getElem?_append_left hlt] at ht
    rw [List.take_append_of_le_length (Nat.le_of_lt hlt)]
    exact h j t hj ht
  · rw [List.getElem?_append_right hge, List.getElem?_singleton] at ht
    split at ht
    · cases ht
      have hlength : j = terms.length := by omega
      rw [hlength, List.take_left]
      exact ⟨hnew, hlost⟩
    · cases ht

theorem join_concat (op : Connective) (ts : List Formula) (hts : ts ≠ []) (t : Formula) :
    op.join (ts ++ [t]) = .bin op (op.join ts) t := by
  cases ts with
  | nil => exact absurd rfl hts
  | cons first rest => simp [Connective.join, Connective.join?]

theorem Queue.add_old (q : Queue) (f : Formula) (hf : f.constant? = none) (hm : f ∈ q.pending) :
    q.add f = q := by
  rcases q.add_cases f with ⟨rfl, _⟩ | ⟨rfl, _⟩ | ⟨_, _, ha⟩ | ⟨_, hn, _⟩
  · cases hf
  · cases hf
  · exact ha
  · exact absurd hm hn.2

theorem Queue.add_new (q : Queue) (f : Formula) (hf : f.constant? = none)
    (hc : q.certain = false) (hn : f ∉ q.pending) :
    q.add f = { q with pending := q.pending ++ [f] } := by
  rcases q.add_cases f with ⟨rfl, _⟩ | ⟨rfl, _⟩ | ⟨_, hq, _⟩ | ⟨_, _, ha⟩
  · cases hf
  · cases hf
  · simp [hc, hn] at hq
  · exact ha

namespace SimplifyingQueue

section Comparison

variable {σ : Type} {words : List String} {limit : Nat} {Inv : σ → Prop} {base : Table}
  {P : Valuation → Prop}

/-- The kept terms are some of the formulas seen so far, in their order. -/
structure Progress.Selects (seen : List Formula) (p : Progress σ) : Prop where
  uncertain : p.kept.certain = false
  occupied : p.kept.pending ≠ []
  among : p.kept.pending.Sublist seen

/-- The running disjunction is made of the kept terms, none of which is superfluous. -/
structure Progress.Retains (P : Valuation → Prop) (p : Progress σ) : Prop where
  running : p.previous = Connective.or.join p.kept.pending
  irredundant : Irredundant P p.kept.pending

theorem Progress.Selects.joined {seen : List Formula} {p : Progress σ} (h : p.Selects seen)
    (o : Oracle σ) (g f : Formula) (hf : f.constant? = none) :
    Progress.Selects (seen ++ [f]) ⟨o, g, p.kept.add f⟩ := by
  by_cases hn : f ∈ p.kept.pending
  · rw [Queue.add_old p.kept f hf hn]
    exact ⟨h.uncertain, h.occupied, h.among.trans (List.sublist_append_left seen [f])⟩
  · rw [Queue.add_new p.kept f hf h.uncertain hn]
    exact ⟨h.uncertain, by simp, h.among.append_right [f]⟩

theorem Progress.Retains.joined {seen : List Formula} {p : Progress σ} (h : p.Retains P)
    (hs : p.Selects seen) (o : Oracle σ) (f : Formula) (hf : f.constant? = none)
    (hn : f ∉ p.kept.pending) (hnew : ¬Implies P f p.previous)
    (hlost : ¬Implies P p.previous f) :
    Progress.Retains P ⟨o, .or p.previous f, p.kept.add f⟩ := by
  rw [Queue.add_new p.kept f hf hs.uncertain hn]
  rw [h.running] at hnew hlost ⊢
  exact ⟨(join_concat .or p.kept.pending hs.occupied f).symm, h.irredundant.append hnew hlost⟩

variable [Solver σ]

/-- The queue of those formulas that a disjunction joins, unless true was added. -/
def kept (q : SimplifyingQueue σ) (subject : Option String) : Queue :=
  match q.queue.pending with
  | [] => .empty
  | first :: rest =>
    (rest.foldlM (consider subject) ⟨q.oracle, first, Queue.empty.add first⟩).value.kept

end Comparison

section History

variable {σ : Type} [Solver σ]

end History

end SimplifyingQueue

end Sentential
