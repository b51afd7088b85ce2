import Sentential.Formula.Flattening
import Sentential.Proofs.Formula.Chain
import Sentential.Proofs.Formula.Rearrangement

/-!
# Flattening and folding

While the stack is worked off, what lies below its top is not touched, and what
was found before stays in front. So a formula on top of the stack turns into its
operands from left to right, whatever lies below it and however the formula is
nested. The number of rounds depends only on the number of operands.

Folding the operands again forgets the nesting and nothing else: the variables
keep their order, so also a missing value is the same one.
-/

set_option autoImplicit false

namespace Sentential

namespace Flattening

/-- A number of rounds of the loop, from one state to another. -/
inductive Rounds (op : Connective) : Nat → Flattening → Flattening → Prop
  | none (s : Flattening) : Rounds op 0 s s
  | more {n : Nat} {s t u : Flattening} : s.step op = some t → Rounds op n t u →
      Rounds op (n + 1) s u

theorem Rounds.trans {op : Connective} {n m : Nat} {s t u : Flattening} (h : Rounds op n s t)
    (h' : Rounds op m t u) : Rounds op (n + m) s u := by
  induction h with
  | none s =>
    rw [Nat.zero_add]
    exact h'
  | more hs _ ih =>
    rw [Nat.succ_add_eq_add_succ]
    exact .more hs (ih h')

theorem Rounds.single {op : Connective} {s t : Flattening} (h : s.step op = some t) :
    Rounds op 1 s t :=
  .more h (.none t)

theorem run_of_step {op : Connective} {s t : Flattening} (h : s.step op = some t) :
    s.run op = t.run op := by
  rw [run]
  split
  · rename_i hn
    rw [h] at hn
    cases hn
  · rename_i u hu
    rw [h] at hu
    rw [Option.some.inj hu]

theorem run_empty (op : Connective) (found : List Formula) : run op ⟨[], found⟩ = found := by
  rw [run]
  rfl

theorem Rounds.run_eq {op : Connective} {n : Nat} {s t : Flattening} (h : Rounds op n s t) :
    s.run op = t.run op := by
  induction h with
  | none s => rfl
  | more hs _ ih => rw [run_of_step hs, ih]

/-- A formula on top of the stack turns into its operands; one round goes to each operand and one to
each connective between them. -/
theorem rounds_terms (op : Connective) (f : Formula) (stack found : List Formula) :
    Rounds op (2 * (f.terms op).length - 1) ⟨f :: stack, found⟩
      ⟨stack, found ++ f.terms op⟩ := by
  induction f generalizing stack found with
  | const value => exact .single rfl
  | var name => exact .single rfl
  | neg inner => exact .single rfl
  | bin p left right ihl ihr =>
    by_cases hp : p = op
    · subst hp
      have hl := List.length_pos_iff.mpr (Formula.terms_ne_nil p left)
      have hr := List.length_pos_iff.mpr (Formula.terms_ne_nil p right)
      have hopen : step p ⟨.bin p left right :: stack, found⟩ =
          some ⟨left :: right :: stack, found⟩ := if_pos rfl
      have hrounds := (ihl (right :: stack) found).trans (ihr stack (found ++ left.terms p))
      have hcount : 2 * ((Formula.bin p left right).terms p).length - 1 =
          2 * (left.terms p).length - 1 + (2 * (right.terms p).length - 1) + 1 := by
        rw [Formula.terms_bin_same, List.length_append]
        omega
      rw [hcount, Formula.terms_bin_same, ← List.append_assoc]
      exact .more hopen hrounds
    · rw [Formula.terms_bin_other left right hp]
      exact .single (if_neg hp)

end Flattening

namespace Formula

theorem flatten_eq_terms (op : Connective) (f : Formula) : f.flatten op = f.terms op := by
  rw [flatten, (Flattening.rounds_terms op f [] []).run_eq, Flattening.run_empty, List.nil_append]

theorem join?_terms (op : Connective) (f : Formula) :
    op.join? (f.terms op) = some (op.join (f.terms op)) := by
  cases h : op.join? (f.terms op) with
  | none => exact absurd ((op.join?_eq_none _).mp h) (terms_ne_nil op f)
  | some g => rw [op.join_eq_of_some h]

/-- Nesting the operands of a chain to the left changes no result of an evaluation. -/
theorem eval_join_terms (op : Connective) (f : Formula) (env : Environment) :
    (op.join (f.terms op)).eval env = f.eval env := by
  apply eval_congr
  · rw [occurrences_join, occurrences_terms]
  · exact (keeps_join_terms op f).holds

/-- The loop with a stack comes to an end after one round for each operand and one for each
connective between them. It finds the operands that the recursion on the formula finds, at least one
and in the order from left to right, and no operand is a chain itself. Folding the operands gives a
formula that is alike the given one and has the same result in every environment. A list of operands
that are no chains themselves is what the loop finds in its fold. -/
theorem flattening_and_folding_are_inverse (op : Connective) :
    (∀ f : Formula,
      Flattening.Rounds op (2 * (f.flatten op).length - 1) ⟨[f], []⟩ ⟨[], f.flatten op⟩ ∧
      f.flatten op = f.terms op ∧
      f.flatten op ≠ [] ∧
      (∀ left right, f = bin op left right →
        f.flatten op = left.flatten op ++ right.flatten op) ∧
      (f.connective? ≠ some op → f.flatten op = [f]) ∧
      (∀ t ∈ f.flatten op, t.connective? ≠ some op) ∧
      ∃ g, op.join? (f.flatten op) = some g ∧ g.alike f = true ∧
        ∀ env, g.eval env = f.eval env) ∧
    ∀ ts : List Formula, ts ≠ [] → (∀ t ∈ ts, t.connective? ≠ some op) →
      ∃ g, op.join? ts = some g ∧ g.flatten op = ts := by
  simp only [flatten_eq_terms, true_and]
  constructor
  · intro f
    refine ⟨?_, terms_ne_nil op f, ?_, terms_of_connective_ne, ?_, ?_⟩
    · exact Flattening.rounds_terms op f [] []
    · rintro left right rfl
      exact terms_bin_same op left right
    · exact fun t => connective_of_mem_terms
    · exact ⟨_, join?_terms op f, alike_join_terms op f, eval_join_terms op f⟩
  · intro ts hts hterms
    have hjoin := terms_join op ts hts hterms
    refine ⟨op.join ts, ?_, hjoin⟩
    have hfold := join?_terms op (op.join ts)
    rwa [hjoin] at hfold

/-- In `a || (b || (c && d))` the loop opens the nested disjunction and leaves the conjunction alone;
the fold of `a`, `c && d` and `!(a || b)` has these three operands again. -/
theorem flattening_and_folding_are_inverse_nested :
    (Formula.or (.var "a") (.or (.var "b") (.and (.var "c") (.var "d")))).flatten .or =
        (Formula.var "a").flatten .or ++
          (Formula.or (.var "b") (.and (.var "c") (.var "d"))).flatten .or ∧
      (Formula.and (.var "c") (.var "d")).connective? ≠ some .or ∧
      (Formula.and (.var "c") (.var "d")).flatten .or = [.and (.var "c") (.var "d")] ∧
      (∀ t ∈ [Formula.var "a", .and (.var "c") (.var "d"), .neg (.or (.var "a") (.var "b"))],
        t.connective? ≠ some .or) ∧
      ∃ g, Connective.or.join?
          [.var "a", .and (.var "c") (.var "d"), .neg (.or (.var "a") (.var "b"))] = some g ∧
        g.flatten .or = [.var "a", .and (.var "c") (.var "d"), .neg (.or (.var "a") (.var "b"))] := by
  have hterms : ∀ t ∈ [Formula.var "a", .and (.var "c") (.var "d"),
      .neg (.or (.var "a") (.var "b"))], t.connective? ≠ some .or := by
    decide
  have hother : (Formula.and (.var "c") (.var "d")).connective? ≠ some .or := by decide
  obtain ⟨flattens, folds⟩ := flattening_and_folding_are_inverse .or
  refine ⟨?_, hother, ?_, hterms, folds _ (by decide) hterms⟩
  · exact (flattens _).2.2.2.1 _ _ rfl
  · exact (flattens _).2.2.2.2.1 hother

end Formula

end Sentential
