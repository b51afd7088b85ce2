import Sentential.Clause.Rules
import Sentential.Proofs.Clause.Conversion

/-!
# The rules in one pass

On a formula without constants the rules are never refused, and they find the
rows that a single pass with a polarity finds. Each rule leaves those rows as
they are; since the rules start again on larger formulas, the induction is the
one by which they end. Replacing the constants first removes the condition.
-/

set_option autoImplicit false

namespace Sentential.Conversion

theorem replaceConstants_hasConstant (f : Formula) : (replaceConstants f).hasConstant = false := by
  induction f with
  | const => rfl
  | var => rfl
  | neg inner ih => exact ih
  | bin op left right ihl ihr =>
    rw [replaceConstants, Formula.hasConstant, ihl, ihr]
    rfl

theorem replaceConstants_isCompound (f : Formula) :
    isCompound (replaceConstants f) = isCompound f := by
  induction f with
  | const => rfl
  | var => rfl
  | neg inner ih => exact ih
  | bin => rfl

/-- A constant and the name in its place give the same literal. -/
theorem rows_replaceConstants (s : Strategy) (positive : Bool) (next : Nat) (f : Formula) :
    rows s positive next (replaceConstants f) = rows s positive next f := by
  induction f generalizing positive next with
  | const => rfl
  | var => rfl
  | neg inner ih => exact ih (!positive) next
  | bin op left right ihl ihr =>
    simp only [replaceConstants, rows, replaceConstants_isCompound, ihl, ihr]

theorem compound?_eq (f : Formula) (h : f.hasConstant = false) :
    compound? f = .ok (isCompound f) := by
  induction f with
  | const => cases h
  | var => rfl
  | neg inner ih => exact ih h
  | bin => rfl

theorem splits?_eq (s : Strategy) (left right : Formula) (hl : left.hasConstant = false)
    (hr : right.hasConstant = false) :
    splits? s left right = .ok (decide (s = .replacing ∧ isCompound left ∧ isCompound right)) := by
  cases s with
  | distributing => rfl
  | replacing =>
    simp only [splits?, compound?_eq left hl, compound?_eq right hr]
    cases isCompound left <;> simp

theorem rows_deMorgan (s : Strategy) (next : Nat) (op : Connective) (left right : Formula) :
    rows s true next (.bin op.dual (.neg left) (.neg right)) =
      rows s true next (.neg (.bin op left right)) := by
  cases op <;> rfl

/-- The variable that decides is no compound operand, so it is put in front of every row. -/
theorem rows_decided (s : Strategy) (next : Nat) (left right : Formula)
    (hs : s = .replacing ∧ isCompound left ∧ isCompound right) :
    rows s true (next + 1) (decided (auxiliary next) left right) =
      rows s true next (.or left right) := by
  rw [rows_split s true next .or left right rfl hs]
  simp [decided, rows, Connective.under, isCompound, distribute, Literal.positive,
    Literal.negative]

theorem byRules_eq (s : Strategy) (next : Nat) (f : Formula) (h : f.hasConstant = false) :
    byRules s next f = .ok (rows s true next f) := by
  fun_induction byRules s next f with
  | case1 => cases h
  | case2 => rfl
  | case3 => cases h
  | case4 => rfl
  | case5 next inner ih => exact ih h
  | case6 next op left right ih => rw [ih h, rows_deMorgan]
  | case7 next left right ihl ihr =>
    obtain ⟨hl, hr⟩ := (Bool.or_eq_false_iff).mp h
    rw [ihl hl]
    show Except.bind (byRules s (rows s true next left).2 right) _ = _
    rw [ihr _ hr]
    rfl
  | case8 next left right e he =>
    obtain ⟨hl, hr⟩ := (Bool.or_eq_false_iff).mp h
    rw [splits?_eq s left right hl hr] at he
    cases he
  | case9 next left right hs ih =>
    obtain ⟨hl, hr⟩ := (Bool.or_eq_false_iff).mp h
    rw [splits?_eq s left right hl hr, Except.ok.injEq, decide_eq_true_eq] at hs
    rw [ih, rows_decided s next left right hs]
    simp [decided, Formula.hasConstant, hl, hr]
  | case10 next left right hs ihl ihr =>
    obtain ⟨hl, hr⟩ := (Bool.or_eq_false_iff).mp h
    rw [splits?_eq s left right hl hr, Except.ok.injEq, decide_eq_false_iff_not] at hs
    rw [ihl hl]
    show Except.bind (byRules s (rows s true next left).2 right) _ = _
    rw [ihr _ hr, rows_distribute s true next .or left right rfl hs]
    rfl

end Sentential.Conversion

namespace Sentential.Converter
open Conversion

/-- The rules never come upon a constant, and they find the table of the single pass. -/
theorem convertByRules_eq (c : Converter) (f : Formula) :
    c.convertByRules f = .ok (c.convert f) := by
  rw [convertByRules, convert]
  by_cases hc : f.hasConstant = true
  · rw [if_pos hc, byRules_eq _ _ _ (replaceConstants_hasConstant f), rows_replaceConstants]
    simp only [hc, if_true]
    rfl
  · rw [if_neg hc, byRules_eq _ _ _ (Bool.eq_false_iff.mpr hc)]
    simp only [hc, Bool.false_eq_true, if_false]
    rfl

end Sentential.Converter
