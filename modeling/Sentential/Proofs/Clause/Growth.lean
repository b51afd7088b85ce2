import Mathlib.Algebra.Group.Action.Defs
import Mathlib.Algebra.Order.BigOperators.Group.List
import Mathlib.Algebra.Order.Ring.Nat
import Sentential.Proofs.Clause.Names

/-!
# Growth of converted formulas

Replacement gives at most one row for each leaf of the formula, and no row has
more literals than the formula has leaves. A disjunction is distributed only if
one of its operands is a literal, which is a single row and multiplies nothing;
a disjunction that is split has at least two leaves on either side, which pay for
the literal in front of its rows. The literals of a row and the numbers used are
bounded in this way under both strategies; only replacement bounds the rows.
-/

set_option autoImplicit false

namespace Sentential

/-- The occurrences of variables and constants. -/
def Formula.leafCount : Formula → Nat
  | .const _ => 1
  | .var _ => 1
  | .neg inner => inner.leafCount
  | .bin _ left right => left.leafCount + right.leafCount

theorem Formula.leafCount_pos (f : Formula) : 0 < f.leafCount := by
  induction f with
  | const => exact Nat.one_pos
  | var => exact Nat.one_pos
  | neg inner ih => exact ih
  | bin op left right ihl ihr =>
    rw [leafCount]
    omega

namespace Conversion

theorem two_le_leafCount (f : Formula) (h : isCompound f = true) : 2 ≤ f.leafCount := by
  induction f with
  | const => cases h
  | var => cases h
  | neg inner ih => exact ih h
  | bin op left right =>
    have hl := left.leafCount_pos
    have hr := right.leafCount_pos
    rw [Formula.leafCount]
    omega

/-- A literal is a single row and introduces nothing. -/
theorem rows_literal (s : Strategy) (positive : Bool) (next : Nat) (f : Formula)
    (h : isCompound f = false) :
    ∃ l, rows s positive next f = ([[l]], next) := by
  induction f generalizing positive with
  | const value => exact ⟨_, rfl⟩
  | var name => exact ⟨_, rfl⟩
  | neg inner ih => exact ih (!positive) h
  | bin => cases h

theorem length_distribute (ls rs : List Row) :
    (distribute ls rs).length = ls.length * rs.length := by
  simp [distribute, List.length_flatMap, List.map_const']

/-- Where a disjunction is not split, one of its operands has a single row. -/
theorem length_distribute_le (positive : Bool) (next next' : Nat) (left right : Formula)
    (hs : ¬(isCompound left ∧ isCompound right)) :
    (distribute (rows .replacing positive next left).1
      (rows .replacing positive next' right).1).length ≤
      (rows .replacing positive next left).1.length +
        (rows .replacing positive next' right).1.length := by
  rw [length_distribute]
  by_cases hl : isCompound left = true
  · have hr : isCompound right = false := by simpa [hl] using hs
    obtain ⟨l, he⟩ := rows_literal .replacing positive next' right hr
    rw [he]
    simp
  · obtain ⟨l, he⟩ := rows_literal .replacing positive next left (by simpa using hl)
    rw [he]
    simp

theorem rows_replacing_length_le (positive : Bool) (next : Nat) (f : Formula) :
    (rows .replacing positive next f).1.length ≤ f.leafCount := by
  induction f generalizing positive next with
  | const => exact Nat.le_refl 1
  | var => exact Nat.le_refl 1
  | neg inner ih => exact ih (!positive) next
  | bin op left right ihl ihr =>
    rw [Formula.leafCount]
    cases hu : op.under positive with
    | and =>
      rw [rows_and _ _ _ _ _ _ hu, List.length_append]
      exact Nat.add_le_add (ihl positive _) (ihr positive _)
    | or =>
      by_cases hs : isCompound left ∧ isCompound right
      · rw [rows_split _ _ _ _ _ _ hu ⟨rfl, hs⟩, List.length_append, List.length_map,
          List.length_map]
        exact Nat.add_le_add (ihl positive _) (ihr positive _)
      · rw [rows_distribute _ _ _ _ _ _ hu (fun h => hs h.2)]
        exact Nat.le_trans (length_distribute_le positive _ _ left right hs)
          (Nat.add_le_add (ihl positive _) (ihr positive _))

theorem rows_row_length_le (s : Strategy) (positive : Bool) (next : Nat) (f : Formula) :
    ∀ row ∈ (rows s positive next f).1, row.length ≤ f.leafCount := by
  induction f generalizing positive next with
  | const => simp [rows, Formula.leafCount]
  | var => simp [rows, Formula.leafCount]
  | neg inner ih => exact ih (!positive) next
  | bin op left right ihl ihr =>
    intro row hr
    rw [Formula.leafCount]
    cases hu : op.under positive with
    | and =>
      rw [rows_and _ _ _ _ _ _ hu] at hr
      rcases List.mem_append.mp hr with hr | hr
      · have hp := ihl _ _ row hr
        omega
      · have hq := ihr _ _ row hr
        omega
    | or =>
      by_cases hs : s = .replacing ∧ isCompound left ∧ isCompound right
      · have hl := two_le_leafCount left hs.2.1
        have hr' := two_le_leafCount right hs.2.2
        rw [rows_split _ _ _ _ _ _ hu hs] at hr
        -- the literal of the decision is paid for by the leaves of the other operand
        rcases List.mem_append.mp hr with hr | hr
        · obtain ⟨p, hp, rfl⟩ := List.mem_map.mp hr
          have hp := ihl _ _ p hp
          rw [List.length_cons]
          omega
        · obtain ⟨q, hq, rfl⟩ := List.mem_map.mp hr
          have hq := ihr _ _ q hq
          rw [List.length_cons]
          omega
      · rw [rows_distribute _ _ _ _ _ _ hu hs] at hr
        obtain ⟨p, hp, q, hq, rfl⟩ := (mem_distribute _ _ _).mp hr
        rw [List.length_append]
        exact Nat.add_le_add (ihl _ _ p hp) (ihr _ _ q hq)

theorem rows_next_lt (s : Strategy) (positive : Bool) (next : Nat) (f : Formula) :
    (rows s positive next f).2 < next + f.leafCount := by
  induction f generalizing positive next with
  | const => exact Nat.lt_succ_self next
  | var => exact Nat.lt_succ_self next
  | neg inner ih => exact ih (!positive) next
  | bin op left right ihl ihr =>
    rw [Formula.leafCount]
    cases hu : op.under positive with
    | and =>
      rw [rows_and _ _ _ _ _ _ hu]
      have hl := ihl positive next
      have hr := ihr positive (rows s positive next left).2
      omega
    | or =>
      by_cases hs : s = .replacing ∧ isCompound left ∧ isCompound right
      · -- either operand uses fewer numbers than it has leaves, so one is left for the split
        rw [rows_split _ _ _ _ _ _ hu hs]
        have hl := ihl positive (next + 1)
        have hr := ihr positive (rows s positive (next + 1) left).2
        omega
      · rw [rows_distribute _ _ _ _ _ _ hu hs]
        have hl := ihl positive next
        have hr := ihr positive (rows s positive next left).2
        omega

end Conversion
open Conversion

namespace Converter

theorem convert_rowCount_le (next : Nat) (f : Formula) :
    ((Converter.mk .replacing next).convert f).1.rowCount ≤
      f.leafCount + (if f.hasConstant then 2 else 0) := by
  have hconstants : (if f.hasConstant then constantRows else []).length =
      if f.hasConstant then 2 else 0 := by
    split <;> rfl
  rw [Table.rowCount, convert_rows, List.length_append, hconstants, Nat.add_comm]
  exact Nat.add_le_add_right (rows_replacing_length_le true next f) _

theorem convert_row_length_le (c : Converter) (f : Formula) :
    ∀ row ∈ (c.convert f).1.rows, row.length ≤ f.leafCount := by
  have hconstants : ∀ row ∈ if f.hasConstant then constantRows else [], row.length = 1 := by
    split <;> decide
  intro row hr
  rw [convert_rows, List.mem_append] at hr
  rcases hr with hr | hr
  · rw [hconstants row hr]
    exact f.leafCount_pos
  · exact rows_row_length_le c.strategy true c.next f row hr

theorem convert_literals_le (next : Nat) (f : Formula) :
    ((Converter.mk .replacing next).convert f).1.rows.flatten.length ≤
      (f.leafCount + 2) * f.leafCount := by
  have hcount := convert_rowCount_le next f
  have hlength := (Converter.mk .replacing next).convert_row_length_le f
  have hsum := List.sum_le_card_nsmul
    (((Converter.mk .replacing next).convert f).1.rows.map List.length) f.leafCount
    (by simpa using hlength)
  rw [List.length_map, smul_eq_mul] at hsum
  rw [List.length_flatten]
  apply Nat.le_trans hsum
  apply Nat.mul_le_mul_right
  rw [Table.rowCount] at hcount
  split at hcount <;> omega

end Converter

/-- Replacement always gives a table, with at most as many rows as the formula has leaves and two
more for the names of constants. No row has more literals than there are leaves, so the table is of
quadratic size, and fewer numbers are used than there are leaves. The counter is taken to stay
below 2⁶⁴. -/
theorem replacement_stays_quadratic (next : Nat) (f : Formula) :
    ∃ t next', (Converter.mk .replacing next).convertByRules f = .ok (t, ⟨.replacing, next'⟩) ∧
      (Converter.mk .replacing next).convert f = (t, ⟨.replacing, next'⟩) ∧
      t.rowCount ≤ f.leafCount + (if f.hasConstant then 2 else 0) ∧
      (∀ row ∈ t.rows, row.length ≤ f.leafCount) ∧
      t.rows.flatten.length ≤ (f.leafCount + 2) * f.leafCount ∧
      next ≤ next' ∧ next' ≤ next + (f.leafCount - 1) := by
  have hnext := rows_next_lt .replacing true next f
  refine ⟨_, _, Converter.convertByRules_eq _ f, rfl, Converter.convert_rowCount_le next f,
    Converter.convert_row_length_le _ f, Converter.convert_literals_le next f,
    (Converter.mk .replacing next).convert_next f, ?_⟩
  show (rows .replacing true next f).2 ≤ next + (f.leafCount - 1)
  omega

end Sentential
