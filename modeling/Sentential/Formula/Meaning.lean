import Sentential.Formula.Basic

/-!
# Truth of a formula

`Formula.eval` reads variables from an environment that may leave names
undefined; both operands of a connective are always evaluated, the left one
first, so the first undefined variable from the left is the one reported.
`Formula.holds` is the truth value under a valuation of all names. The two
agree on environments that define every name.
-/

set_option autoImplicit false

namespace Sentential

inductive EvalError where
  | missingVariable (name : String)
  deriving DecidableEq, Repr

def EvalError.message : EvalError → String
  | .missingVariable name => "no value for variable " ++ name

abbrev Environment := String → Option Bool

abbrev Valuation := String → Bool

namespace Formula

def eval (env : Environment) : Formula → Except EvalError Bool
  | .const value => .ok value
  | .var name =>
    match env name with
    | some value => .ok value
    | none => .error (.missingVariable name)
  | .neg inner =>
    match inner.eval env with
    | .ok value => .ok (!value)
    | .error e => .error e
  | .bin op left right =>
    match left.eval env with
    | .error e => .error e
    | .ok a =>
      match right.eval env with
      | .error e => .error e
      | .ok b => .ok (op.apply a b)

def holds (v : Valuation) : Formula → Bool
  | .const value => value
  | .var name => v name
  | .neg inner => !inner.holds v
  | .bin op left right => op.apply (left.holds v) (right.holds v)

theorem eval_total (v : Valuation) (f : Formula) :
    f.eval (fun name => some (v name)) = .ok (f.holds v) := by
  induction f with
  | const => rfl
  | var => rfl
  | neg inner ih => simp [eval, holds, ih]
  | bin op left right ihl ihr => simp [eval, holds, ihl, ihr]

end Formula

end Sentential
