import Sentential.Clause.Conversion
import Sentential.Formula.Text

/-!
# Conversion by rules

The rules behind `Converter.convert`, applied one at a time to whole formulas.
Constants are replaced by names first; no rule expects one after that. De Morgan's
laws move a negation below a connective, and a disjunction that is to be split
becomes a conjunction over a new variable. The rules then start again on what they
have built, which may be larger than the formula they were given.
-/

set_option autoImplicit false

namespace Sentential
namespace Conversion

/-- The rules have come upon a constant. -/
structure Refusal where
  constant : Bool
  /-- The constant stood directly under a negation. -/
  negated : Bool
  deriving DecidableEq, Repr

def Refusal.message (r : Refusal) : String :=
  "unexpected element in formula tree: constant " ++ (Formula.const r.constant).text ++
    (if r.negated then " in negation" else " in tree")

def replaceConstants : Formula → Formula
  | .const value => .var (constantName value)
  | .var name => .var name
  | .neg inner => .neg (replaceConstants inner)
  | .bin op left right => .bin op (replaceConstants left) (replaceConstants right)

/-- Whether the formula has a connective below its outermost negations, unless it has a constant
there. -/
def compound? : Formula → Except Refusal Bool
  | .const value => .error ⟨value, false⟩
  | .var _ => .ok false
  | .neg inner => compound? inner
  | .bin .. => .ok true

/-- Whether a disjunction is to be split. The right operand matters only if the left one is
compound. -/
def splits? (s : Strategy) (left right : Formula) : Except Refusal Bool :=
  match s with
  | .distributing => .ok false
  | .replacing =>
    match compound? left with
    | .ok true => compound? right
    | answer => answer

/-- The disjunction of two formulas, with a variable that decides between them. -/
def decided (name : String) (left right : Formula) : Formula :=
  .and (.or (.neg (.var name)) left) (.or (.var name) right)

/-- What a connective adds to the effort. Between compound operands it pays for the split of the
disjunction that it is or may become. -/
def toll : Connective → Bool → Nat
  | .and, true => 7
  | .or, true => 13
  | _, false => 1

/-- Decreases with every rule, although the formula may grow: a negation doubles what is below it,
and so pays for being repeated under each connective that it passes. -/
def effort : Formula → Nat
  | .const _ => 1
  | .var _ => 1
  | .neg inner => 2 * effort inner
  | .bin op left right =>
    effort left + effort right + toll op (isCompound left && isCompound right)

theorem toll_pos (op : Connective) (compound : Bool) : 0 < toll op compound := by
  cases op <;> cases compound <;> decide

theorem toll_dual_lt (op : Connective) (compound : Bool) :
    toll op.dual compound < 2 * toll op compound := by
  cases op <;> cases compound <;> decide

theorem effort_pos (f : Formula) : 0 < effort f := by
  induction f with
  | const => exact Nat.one_pos
  | var => exact Nat.one_pos
  | neg inner ih =>
    rw [effort]
    omega
  | bin op left right ihl _ =>
    rw [effort]
    omega

theorem effort_operands (op : Connective) (left right : Formula) :
    effort left < effort (.bin op left right) ∧ effort right < effort (.bin op left right) := by
  have := toll_pos op (isCompound left && isCompound right)
  simp only [effort]
  omega

theorem effort_deMorgan (op : Connective) (left right : Formula) :
    effort (.bin op.dual (.neg left) (.neg right)) < effort (.neg (.bin op left right)) := by
  have := toll_dual_lt op (isCompound left && isCompound right)
  simp only [effort, isCompound]
  omega

theorem effort_decided (name : String) (left right : Formula) (hl : isCompound left = true)
    (hr : isCompound right = true) : effort (decided name left right) < effort (.or left right) := by
  simp only [decided, effort, isCompound, hl, hr, Bool.false_and, Bool.and_self, toll]
  omega

theorem isCompound_of_compound? (f : Formula) (h : compound? f = .ok true) :
    isCompound f = true := by
  induction f with
  | const => cases h
  | var => cases h
  | neg inner ih => exact ih h
  | bin => rfl

theorem isCompound_of_splits? (s : Strategy) (left right : Formula)
    (h : splits? s left right = .ok true) : isCompound left = true ∧ isCompound right = true := by
  cases s with
  | distributing => cases h
  | replacing =>
    unfold splits? at h
    dsimp only at h
    split at h
    · rename_i hl
      exact ⟨isCompound_of_compound? left hl, isCompound_of_compound? right h⟩
    · rename_i hl
      exact absurd h hl

/-- The rows of a formula and the number of the next auxiliary variable after them. -/
def byRules (s : Strategy) (next : Nat) : Formula → Except Refusal (List Row × Nat)
  | .const value => .error ⟨value, false⟩
  | .var name => .ok ([[.positive name]], next)
  | .neg (.const value) => .error ⟨value, true⟩
  | .neg (.var name) => .ok ([[.negative name]], next)
  | .neg (.neg inner) => byRules s next inner
  -- De Morgan's law, after which the rules start again
  | .neg (.bin op left right) => byRules s next (.bin op.dual (.neg left) (.neg right))
  | .bin .and left right => do
    let (ls, next) ← byRules s next left
    let (rs, next) ← byRules s next right
    return (ls ++ rs, next)
  | .bin .or left right =>
    match h : splits? s left right with
    | .error e => .error e
    | .ok true => byRules s (next + 1) (decided (auxiliary next) left right)
    | .ok false => do
      let (ls, next) ← byRules s next left
      let (rs, next) ← byRules s next right
      return (distribute ls rs, next)
termination_by f => effort f
decreasing_by
  · simp only [effort]
    have := effort_pos inner
    omega
  · exact effort_deMorgan op left right
  · exact (effort_operands .and left right).1
  · exact (effort_operands .and left right).2
  · have compound := isCompound_of_splits? s left right h
    exact effort_decided _ left right compound.1 compound.2
  · exact (effort_operands .or left right).1
  · exact (effort_operands .or left right).2

end Conversion

/-- The clause table of a formula as the rules find it. -/
def Converter.convertByRules (c : Converter) (f : Formula) :
    Except Conversion.Refusal (Table × Converter) :=
  if f.hasConstant then do
    let (rows, next) ← Conversion.byRules c.strategy c.next (Conversion.replaceConstants f)
    return (⟨Conversion.constantRows ++ rows⟩, { c with next })
  else do
    let (rows, next) ← Conversion.byRules c.strategy c.next f
    return (⟨rows⟩, { c with next })

end Sentential
