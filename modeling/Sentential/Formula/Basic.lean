import Sentential.Names

/-!
# Propositional formulas

A formula is a binary tree over constants and named variables. The two binary
connectives are one constructor with a `Connective` argument: every law of
conjunction has a dual for disjunction, and stating both at once keeps the two
alike.
-/

set_option autoImplicit false

namespace Sentential

inductive Connective where
  | and
  | or
  deriving DecidableEq, Repr

namespace Connective

def dual : Connective → Connective
  | .and => .or
  | .or => .and

/-- The constant that may be left out of a chain: true for `and`, false for `or`. -/
def neutral : Connective → Bool
  | .and => true
  | .or => false

/-- The constant that decides a chain: false for `and`, true for `or`. -/
def absorbing : Connective → Bool
  | .and => false
  | .or => true

def apply : Connective → Bool → Bool → Bool
  | .and, a, b => a && b
  | .or, a, b => a || b

@[simp] theorem dual_dual (op : Connective) : op.dual.dual = op := by
  cases op <;> rfl

@[simp] theorem dual_ne (op : Connective) : op.dual ≠ op := by
  cases op <;> decide

@[simp] theorem not_neutral (op : Connective) : (!op.neutral) = op.absorbing := by
  cases op <;> rfl

end Connective

inductive Formula where
  | const (value : Bool)
  | var (name : String)
  | neg (inner : Formula)
  | bin (op : Connective) (left right : Formula)
  deriving DecidableEq, Repr

namespace Formula

@[match_pattern] abbrev and (left right : Formula) : Formula := .bin .and left right

@[match_pattern] abbrev or (left right : Formula) : Formula := .bin .or left right

def constant? : Formula → Option Bool
  | .const value => some value
  | _ => none

def name? : Formula → Option String
  | .var name => some name
  | _ => none

/-- The formula under an outermost negation. -/
def negated? : Formula → Option Formula
  | .neg inner => some inner
  | _ => none

/-- The outermost connective. -/
def connective? : Formula → Option Connective
  | .bin op _ _ => some op
  | _ => none

def hasConstant : Formula → Bool
  | .const _ => true
  | .var _ => false
  | .neg inner => inner.hasConstant
  | .bin _ left right => left.hasConstant || right.hasConstant

/-- The variable occurrences from left to right, in front of `rest`. -/
def occurrencesOnto : Formula → List String → List String
  | .const _, rest => rest
  | .var name, rest => name :: rest
  | .neg inner, rest => inner.occurrencesOnto rest
  | .bin _ left right, rest => left.occurrencesOnto (right.occurrencesOnto rest)

/-- The variable occurrences from left to right. -/
def occurrences (f : Formula) : List String :=
  f.occurrencesOnto []

/-- The names of the variables, increasing and without repetition. -/
def names (f : Formula) : List String :=
  Names.ofList f.occurrences

theorem occurrencesOnto_eq (f : Formula) (rest : List String) :
    f.occurrencesOnto rest = f.occurrences ++ rest := by
  induction f generalizing rest with
  | const => rfl
  | var => rfl
  | neg inner ih => exact ih rest
  | bin op left right ihl ihr =>
    simp only [occurrences, occurrencesOnto] at *
    rw [ihl, ihl (right.occurrencesOnto []), ihr, List.append_assoc]

@[simp] theorem occurrences_const (value : Bool) : (const value).occurrences = [] := rfl

@[simp] theorem occurrences_var (name : String) : (var name).occurrences = [name] := rfl

@[simp] theorem occurrences_neg (f : Formula) : (neg f).occurrences = f.occurrences := rfl

@[simp] theorem occurrences_bin (op : Connective) (left right : Formula) :
    (bin op left right).occurrences = left.occurrences ++ right.occurrences := by
  show left.occurrencesOnto right.occurrences = _
  exact left.occurrencesOnto_eq _

@[simp] theorem mem_names (f : Formula) (name : String) :
    name ∈ f.names ↔ name ∈ f.occurrences :=
  Names.mem_ofList name f.occurrences

/-- The negation of a formula, where an outer negation is removed instead of doubled. -/
def opposite : Formula → Formula
  | .neg inner => inner
  | f => .neg f

/-- The negation of a formula, where a double negation is removed and a constant is flipped. -/
def foldedNeg : Formula → Formula
  | .neg inner => inner
  | .const value => .const (!value)
  | f => .neg f

end Formula

end Sentential
