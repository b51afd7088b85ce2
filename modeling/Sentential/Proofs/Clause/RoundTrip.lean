import Sentential.Proofs.Clause.Rules
import Sentential.Proofs.Formula.Chain

/-!
# Tables that are read back

The formula of a table is a conjunction of disjunctions, both nested to the left.
Each disjunction meets a single literal on its right, so neither strategy splits
it, and distribution puts the literal behind the only row there is. A table without
an empty row therefore comes back row by row and literal by literal. An empty row
is the constant false and an empty table the constant true; these have names of
their own in a converted table, and only the meaning is kept.
-/

set_option autoImplicit false

namespace Sentential
namespace Conversion

/-- The formula has no constant, and both strategies give it these rows without a new variable. -/
structure Transcribes (f : Formula) (rs : List Row) : Prop where
  plain : f.hasConstant = false
  rows_eq : ∀ (s : Strategy) (next : Nat), rows s true next f = (rs, next)

theorem isCompound_toFormula (l : Literal) : isCompound l.toFormula = false := by
  rcases l with ⟨name, negated⟩
  cases negated <;> rfl

theorem transcribes_literal (l : Literal) : Transcribes l.toFormula [[l]] := by
  rcases l with ⟨name, negated⟩
  cases negated <;> exact ⟨rfl, fun _ _ => rfl⟩

theorem Transcribes.and {f g : Formula} {rs ss : List Row} (hf : Transcribes f rs)
    (hg : Transcribes g ss) : Transcribes (.and f g) (rs ++ ss) := by
  constructor
  · show (f.hasConstant || g.hasConstant) = false
    rw [hf.plain, hg.plain, Bool.or_false]
  · intro s next
    rw [rows_and s true next .and f g rfl, hf.rows_eq, hg.rows_eq]

/-- The right operand is no connective, so the disjunction is not split. -/
theorem Transcribes.or_literal {f : Formula} {p : Row} (hf : Transcribes f [p]) (l : Literal) :
    Transcribes (.or f l.toFormula) [p ++ [l]] := by
  have hl := transcribes_literal l
  constructor
  · show (f.hasConstant || l.toFormula.hasConstant) = false
    rw [hf.plain, hl.plain, Bool.or_false]
  · intro s next
    have hs : ¬(s = .replacing ∧ isCompound f ∧ isCompound l.toFormula) := by
      simp [isCompound_toFormula]
    rw [rows_distribute s true next .or f l.toFormula rfl hs, hf.rows_eq, hl.rows_eq]
    rfl

theorem Transcribes.disjunction {f : Formula} {p : Row} (hf : Transcribes f [p]) (ls : List Literal) :
    Transcribes ((ls.map Literal.toFormula).foldl (.bin .or) f) [p ++ ls] := by
  induction ls generalizing f p with
  | nil =>
    rw [List.append_nil]
    exact hf
  | cons l ls ih =>
    have hstep := ih (hf.or_literal l)
    rw [List.append_assoc] at hstep
    exact hstep

theorem transcribes_row (row : Row) (h : row ≠ []) :
    Transcribes (Connective.join .or (row.map Literal.toFormula)) [row] := by
  cases row with
  | nil => exact absurd rfl h
  | cons l ls => exact (transcribes_literal l).disjunction ls

theorem Transcribes.conjunction {f : Formula} {rs : List Row} (hf : Transcribes f rs)
    (ss : List Row) (h : ∀ row ∈ ss, row ≠ []) :
    Transcribes ((ss.map (fun row => Connective.join .or (row.map Literal.toFormula))).foldl
      (.bin .and) f) (rs ++ ss) := by
  induction ss generalizing f rs with
  | nil =>
    rw [List.append_nil]
    exact hf
  | cons row ss ih =>
    rw [List.forall_mem_cons] at h
    have hstep := ih (hf.and (transcribes_row row h.1)) h.2
    rw [List.append_assoc] at hstep
    exact hstep

theorem transcribes_toFormula (t : Table) (ht : t.rows ≠ []) (h : ∀ row ∈ t.rows, row ≠ []) :
    Transcribes t.toFormula t.rows := by
  obtain ⟨rs⟩ := t
  cases rs with
  | nil => exact absurd rfl ht
  | cons row rs =>
    rw [List.forall_mem_cons] at h
    exact (transcribes_row row h.1).conjunction rs h.2

theorem Transcribes.convert {f : Formula} {rs : List Row} (h : Transcribes f rs) (c : Converter) :
    c.convert f = (⟨rs⟩, c) := by
  simp only [Converter.convert, h.rows_eq, h.plain, Bool.false_eq_true, if_false]

end Conversion
open Conversion

theorem Table.holds_toFormula (t : Table) (v : Valuation) :
    t.toFormula.holds v = true ↔ ∀ row ∈ t.rows, ∃ l ∈ row, l.holds v = true := by
  have hrow (row : Row) : (Connective.join .or (row.map Literal.toFormula)).holds v = true ↔
      ∃ l ∈ row, l.holds v = true := by
    have hjoin := Formula.holds_join .or (row.map Literal.toFormula) v
    simpa [Connective.absorbing] using hjoin
  have hjoin := Formula.holds_join_dual .and
    (t.rows.map (fun row => Connective.join .or (row.map Literal.toFormula))) v
  simp only [List.forall_mem_map, Connective.dual, Connective.absorbing, hrow] at hjoin
  exact hjoin

/-- Either strategy, whatever number it has reached, gives back exactly the rows of a table from its
formula and uses no number, provided the table has a row and no empty one. The formula of any
table evaluates to true if and only if every row has a true literal. -/
theorem tables_survive_round_trip (t : Table) :
    (t.rows ≠ [] → (∀ row ∈ t.rows, row ≠ []) → ∀ c : Converter,
      c.convertByRules t.toFormula = .ok (t, c) ∧ c.convert t.toFormula = (t, c)) ∧
    ∀ v : Valuation, t.toFormula.eval (fun name => some (v name)) = .ok true ↔
      ∀ row ∈ t.rows, ∃ l ∈ row, l.holds v = true := by
  constructor
  · intro ht h c
    have hconvert := (transcribes_toFormula t ht h).convert c
    exact ⟨by rw [c.convertByRules_eq, hconvert], hconvert⟩
  · intro v
    rw [Formula.eval_total, Except.ok.injEq]
    exact t.holds_toFormula v

/-- The names of auxiliary variables and constants are like any others, and no literal is dropped
for being repeated or for standing beside its negation. -/
theorem tables_survive_round_trip_reserved :
    (Converter.mk .replacing 1).convertByRules
        (Table.mk [[.positive "a", .negative "a", .positive "temp_1"],
          [.negative (constantName true)],
          [.positive "b", .negative "temp_2", .positive "b"]]).toFormula =
      .ok (⟨[[.positive "a", .negative "a", .positive "temp_1"],
        [.negative (constantName true)],
        [.positive "b", .negative "temp_2", .positive "b"]]⟩, ⟨.replacing, 1⟩) :=
  ((tables_survive_round_trip _).1 (by decide) (by decide) _).1

end Sentential
