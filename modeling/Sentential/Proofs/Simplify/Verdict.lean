import Sentential.Formula.Text
import Sentential.Proofs.Simplify.Laws

/-!
# The laws in both orders

Simplifiers ask for the verdict on two operands in one order only. They lose
nothing by that: whether a law applies at all, and whether the operands decide
their chain, does not depend on the order. What the verdicts say is right under
every valuation, and a formula that replaces an operand has a shorter text, so
they can be followed again and again.
-/

set_option autoImplicit false

namespace Sentential.Simplify

open Formula

/-- Two operands decide their chain exactly if they are complementary and not alike. -/
theorem verdict_collapse_iff (op : Connective) (left right : Formula) :
    verdict op left right = .collapse ↔
      left.alike right = false ∧ complementary left right = true := by
  constructor
  · intro h
    refine ⟨?_, complementary_of_verdict_collapse h⟩
    rw [← Bool.not_eq_true]
    intro ha
    rw [verdict, if_pos ha] at h
    cases h
  · rintro ⟨ha, hc⟩
    rw [verdict, if_neg (by simp [ha]), if_pos hc]

theorem verdict_collapse_comm (op : Connective) (left right : Formula) :
    verdict op left right = .collapse ↔ verdict op right left = .collapse := by
  rw [verdict_collapse_iff, verdict_collapse_iff, alike_comm, complementary_comm]

/-- Two operands and what their verdict makes of them have the same value, in every environment
that gives one and under every valuation. A formula that replaces an operand has a shorter text than
the operand. The order of the operands makes no difference to whether they are kept and to whether
they decide their chain. -/
theorem laws_are_sound_shrinking_and_symmetric (op : Connective) (left right : Formula) :
    (∀ env b, (bin op left right).eval env = .ok b →
      ((verdict op left right).result op left right).eval env = .ok b) ∧
    (∀ v, ((verdict op left right).result op left right).holds v = (bin op left right).holds v) ∧
    (∀ f, verdict op left right = .replaceRight f →
      f.text.utf8ByteSize < right.text.utf8ByteSize) ∧
    (∀ f, verdict op left right = .replaceLeft f →
      f.text.utf8ByteSize < left.text.utf8ByteSize) ∧
    (verdict op left right = .keep ↔ verdict op right left = .keep) ∧
    (verdict op left right = .collapse ↔ verdict op right left = .collapse) := by
  have hkeeps := verdict_keeps op left right
  refine ⟨hkeeps.eval, hkeeps.holds, ?_, ?_, ?_, verdict_collapse_comm op left right⟩
  · exact fun f h => (verdict_replaceRight_smaller h).text
  · exact fun f h => (verdict_replaceLeft_smaller h).text
  · exact ⟨verdict_keep_comm op left right, verdict_keep_comm op right left⟩

/-- In `!a && ((a || b) || c)` the second operand loses `a`, whichever operand comes first. -/
theorem laws_are_sound_shrinking_and_symmetric_nested :
    verdict .and (.or (.or (.var "a") (.var "b")) (.var "c")) (.neg (.var "a")) =
        .replaceLeft (.or (.var "b") (.var "c")) ∧
      (Formula.or (.var "b") (.var "c")).text.utf8ByteSize <
        (Formula.or (.or (.var "a") (.var "b")) (.var "c")).text.utf8ByteSize := by
  have h : verdict .and (.or (.or (.var "a") (.var "b")) (.var "c")) (.neg (.var "a")) =
      .replaceLeft (.or (.var "b") (.var "c")) := by
    cbv
  exact ⟨h, (laws_are_sound_shrinking_and_symmetric _ _ _).2.2.2.1 _ h⟩

end Sentential.Simplify
