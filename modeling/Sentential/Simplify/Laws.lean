import Sentential.Formula.Reordering

/-!
# Laws for two operands of a connective

`verdict op left right` says what one pass of the simplifiers may do with two
operands of `op`. The laws are tried in a fixed order: idempotence, complements,
absorption, complements inside a chain of the dual connective, and complements
inside a negated chain.
-/

set_option autoImplicit false

namespace Sentential.Simplify

open Formula

inductive Verdict where
  | keep
  | dropLeft
  | dropRight
  /-- Together the operands decide the chain: it is the absorbing constant. -/
  | collapse
  | replaceLeft (f : Formula)
  | replaceRight (f : Formula)
  deriving DecidableEq, Repr

/-- One of the formulas is the negation of the other, up to reordering. -/
def complementary (a b : Formula) : Bool :=
  (match a with
    | .neg inner => inner.alike b
    | _ => false) ||
  (match b with
    | .neg inner => a.alike inner
    | _ => false)

/-- A chain of the dual connective with at least two operands loses its first operand that is
complementary to `term`: `a || (!a && b)` is `a || b`. -/
def withoutComplement (op : Connective) (term : Formula) (operands : List Formula) :
    Option Formula :=
  if operands.length < 2 then none
  else (Matching.take? (complementary term) operands).bind op.dual.join?

/-- What `term` does to another operand that is the negation of a chain of the same connective.
An operand of that chain that is alike `term` is left out of it, `a || !(a || b)` being `a || !b`;
if one is complementary to `term`, then `term` absorbs the whole negation, as in `a || !(!a || b)`. -/
inductive Absorbed where
  | rest (f : Formula)
  | whole
  deriving DecidableEq, Repr

def absorbNegated (op : Connective) (term : Formula) : Formula → Option Absorbed
  | .neg (.bin p left right) =>
    if p = op then
      let inner := (bin p left right).terms op
      match Matching.take? (fun t => t.alike term) inner with
      | some rest => (op.join? rest).map (fun f => .rest f.opposite)
      | none => if inner.any (fun t => complementary t term) then some .whole else none
    else none
  | _ => none

/-- The first law that applies to two operands of `op`. -/
def verdict (op : Connective) (left right : Formula) : Verdict :=
  if left.alike right then .dropRight
  else if complementary left right then .collapse
  else if termsEmbed (left.terms op.dual) (right.terms op.dual) then .dropRight
  else if termsEmbed (right.terms op.dual) (left.terms op.dual) then .dropLeft
  else match withoutComplement op left (right.terms op.dual) with
  | some f => .replaceRight f
  | none =>
    match withoutComplement op right (left.terms op.dual) with
    | some f => .replaceLeft f
    | none =>
      match absorbNegated op left right with
      | some (.rest f) => .replaceRight f
      | some .whole => .dropRight
      | none =>
        match absorbNegated op right left with
        | some (.rest f) => .replaceLeft f
        | some .whole => .dropLeft
        | none => .keep

theorem withoutComplement_smaller {op : Connective} {term other f : Formula}
    (h : withoutComplement op term (other.terms op.dual) = some f) : f.Smaller other := by
  intro m
  simp only [withoutComplement] at h
  split at h
  · cases h
  · obtain ⟨rest, taken, joined⟩ := Option.bind_eq_some_iff.mp h
    obtain ⟨b, _, _, total⟩ := m.total_take? taken
    have := m.size_join? joined
    have := m.total_terms op.dual other
    have := m.bin_pos
    omega

theorem absorbNegated_smaller {op : Connective} {term other f : Formula}
    (h : absorbNegated op term other = some (.rest f)) : f.Smaller other := by
  intro m
  unfold absorbNegated at h
  split at h
  · rename_i p left right
    split at h
    · rename_i same
      subst same
      dsimp only at h
      split at h
      · rename_i rest taken
        obtain ⟨joined, hjoined, hf⟩ := Option.map_eq_some_iff.mp h
        cases hf
        obtain ⟨b, _, _, total⟩ := m.total_take? taken
        have := m.size_join? hjoined
        have := m.total_terms p (.bin p left right)
        have := size_opposite_le m joined
        have := m.bin_pos
        have : m.size (.neg (.bin p left right)) = m.neg + m.size (.bin p left right) := rfl
        omega
      · split at h <;> simp at h
    · cases h
  · cases h

theorem verdict_replaceRight_smaller {op : Connective} {left right f : Formula}
    (h : verdict op left right = .replaceRight f) : f.Smaller right := by
  unfold verdict at h
  repeat' split at h
  all_goals cases h
  · exact withoutComplement_smaller (by assumption)
  · exact absorbNegated_smaller (by assumption)

theorem verdict_replaceLeft_smaller {op : Connective} {left right f : Formula}
    (h : verdict op left right = .replaceLeft f) : f.Smaller left := by
  unfold verdict at h
  repeat' split at h
  all_goals cases h
  · exact withoutComplement_smaller (by assumption)
  · exact absorbNegated_smaller (by assumption)

theorem negated_of_complementary {a b : Formula} (h : complementary a b = true) :
    (∃ inner, a = .neg inner) ∨ ∃ inner, b = .neg inner := by
  cases a <;> cases b <;> simp_all [complementary]

theorem complementary_of_verdict_collapse {op : Connective} {left right : Formula}
    (h : verdict op left right = .collapse) : complementary left right = true := by
  unfold verdict at h
  repeat' split at h
  all_goals first
    | assumption
    | cases h

end Sentential.Simplify
