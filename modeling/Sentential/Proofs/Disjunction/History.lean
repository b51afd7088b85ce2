import Mathlib.Algebra.BigOperators.Group.List.Basic
import Sentential.Proofs.Clause.Growth
import Sentential.Proofs.Disjunction.Queue
import Sentential.Proofs.Oracle.Vocabulary

/-!
# What a simplifying queue asks

Which questions a history of operations asks depends on the answers, but its names
do so only through the number of auxiliary variables. The converter counts them and
never counts back, so its number at the end bounds the names of all questions.

That number is bounded by the formulas alone. A comparison asks two questions about
the running disjunction and the formula, and each of them introduces fewer auxiliary
variables than these have leaves. The running disjunction has no more leaves than the
formulas queued so far, and a formula is compared at most once, at the next
disjunction. The leaves that wait in the queue therefore pay for it in advance, and
the bound does not grow with the number of disjunctions.
-/

set_option autoImplicit false

namespace Sentential

namespace SimplifyingQueue

inductive Action where
  | add (f : Formula)
  | addAll (fs : List Formula)
  | reset
  | disjunction (subject : Option String)

/-- What has been added since the last reset or disjunction, if `added` was before the action. -/
def Action.collected (added : List Formula) : Action → List Formula
  | .add f => added ++ [f]
  | .addAll fs => added ++ fs
  | .reset => []
  | .disjunction _ => []

/-- The formulas that an action brings in. -/
def Action.formulas : Action → List Formula
  | .add f => [f]
  | .addAll fs => fs
  | _ => []

/-- What has been added since the last reset or disjunction of a history. -/
def collected (added : List Formula) : List Action → List Formula
  | [] => added
  | a :: history => collected (a.collected added) history

section Questions

variable {σ : Type} [Solver σ]

/-- A comparison ends with its first question, unless the answer is true; then a second question
decides. -/
theorem relevance_cases (o : Oracle σ) (f g : Formula) :
    (∃ e, (o.satisfiable (.and (.neg f) g)).1 = .error e ∧
      relevance o f g = (.error e, (o.satisfiable (.and (.neg f) g)).2)) ∨
    ((o.satisfiable (.and (.neg f) g)).1 = .ok false ∧
      relevance o f g = (.ok .previous, (o.satisfiable (.and (.neg f) g)).2)) ∨
    ((o.satisfiable (.and (.neg f) g)).1 = .ok true ∧
      relevance o f g =
        (((o.satisfiable (.and (.neg f) g)).2.satisfiable (.and f (.neg g))).1.map
            (fun lost => if lost then .both else .current),
          ((o.satisfiable (.and (.neg f) g)).2.satisfiable (.and f (.neg g))).2)) := by
  rcases hfirst : o.satisfiable (.and (.neg f) g) with ⟨e | b, o'⟩
  · exact .inl ⟨e, rfl, by simp [relevance, hfirst]⟩
  · cases b with
    | false => exact .inr (.inl ⟨rfl, by simp [relevance, hfirst]⟩)
    | true =>
      refine .inr (.inr ⟨rfl, ?_⟩)
      rcases hsecond : o'.satisfiable (.and f (.neg g)) with ⟨e | c, o''⟩
      · simp [relevance, hfirst, hsecond, Except.map]
      · cases c <;> simp [relevance, hfirst, hsecond, Except.map]

theorem first_next (o : Oracle σ) (f g : Formula) :
    (o.satisfiable (.and (.neg f) g)).2.converter.next ≤ (relevance o f g).2.converter.next := by
  rcases relevance_cases o f g with ⟨e, _, h⟩ | ⟨_, h⟩ | ⟨_, h⟩
  · exact Nat.le_of_eq (by rw [h])
  · exact Nat.le_of_eq (by rw [h])
  · rw [h]
    exact Oracle.satisfiable_next _ _

theorem relevance_next (o : Oracle σ) (f g : Formula) :
    o.converter.next ≤ (relevance o f g).2.converter.next :=
  Nat.le_trans (o.satisfiable_next _) (first_next o f g)

theorem consider_oracle (subject : Option String) (p : Progress σ) (f : Formula) :
    (consider subject p f).value.oracle = (relevance p.oracle p.previous f).2 := by
  unfold consider
  split <;> rename_i o hr <;> rw [hr]

theorem considered_next (subject : Option String) (p : Progress σ) (fs : List Formula) :
    p.oracle.converter.next ≤ (fs.foldlM (consider subject) p).value.oracle.converter.next := by
  rw [Logged.value_foldlM]
  induction fs generalizing p with
  | nil => exact Nat.le_refl _
  | cons f fs ih =>
    have hstep := relevance_next p.oracle p.previous f
    rw [← consider_oracle subject] at hstep
    exact Nat.le_trans hstep (ih _)

/-- Whatever was queued, a disjunction leaves nothing behind. -/
theorem disjunction_queue (q : SimplifyingQueue σ) (subject : Option String) :
    (q.disjunction subject).value.2.queue = .empty := by
  rw [disjunction]
  split
  · rfl
  · split <;> rfl

def step (q : SimplifyingQueue σ) : Action → SimplifyingQueue σ
  | .add f => q.add f
  | .addAll fs => q.addAll fs
  | .reset => q.reset
  | .disjunction subject => (q.disjunction subject).value.2

/-- The queue after a history of actions. -/
def after (q : SimplifyingQueue σ) : List Action → SimplifyingQueue σ
  | [] => q
  | a :: history => (q.step a).after history

end Questions

end SimplifyingQueue

namespace SimplifyingQueue

section Size

variable {σ : Type} [Solver σ]

theorem after_append (q : SimplifyingQueue σ) (history later : List Action) :
    q.after (history ++ later) = (q.after history).after later := by
  induction history generalizing q with
  | nil => rfl
  | cons a history ih => exact ih (q.step a)

end Size

end SimplifyingQueue

end Sentential
