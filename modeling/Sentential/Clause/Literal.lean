import Sentential.Formula.Meaning

/-!
# Literals

A literal is a named variable or its negation. Literals are ordered by name, a
variable coming before its own negation.
-/

set_option autoImplicit false

namespace Sentential

structure Literal where
  name : String
  negated : Bool
  deriving DecidableEq, Repr

namespace Literal

def positive (name : String) : Literal := ⟨name, false⟩

def negative (name : String) : Literal := ⟨name, true⟩

def text (l : Literal) : String :=
  if l.negated then "!" ++ l.name else l.name

def toFormula (l : Literal) : Formula :=
  if l.negated then .neg (.var l.name) else .var l.name

def holds (v : Valuation) (l : Literal) : Bool :=
  v l.name != l.negated

def order : Literal → Literal → Ordering :=
  compareLex (compareOn Literal.name) (compareOn Literal.negated)

@[simp] theorem holds_toFormula (v : Valuation) (l : Literal) :
    l.toFormula.holds v = l.holds v := by
  rcases l with ⟨name, negated⟩
  cases negated <;> simp [toFormula, holds, Formula.holds]

end Literal

end Sentential
