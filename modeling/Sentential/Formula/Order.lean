import Sentential.Formula.Basic

/-!
# A total order on formulas

True comes first, then false, variables by name, negations, conjunctions and
disjunctions; formulas of one kind compare by their parts from left to right.
-/

set_option autoImplicit false

namespace Sentential

def Connective.order : Connective → Connective → Ordering
  | .and, .or => .lt
  | .or, .and => .gt
  | _, _ => .eq

namespace Formula

def order : Formula → Formula → Ordering
  | .const true, .const false => .lt
  | .const false, .const true => .gt
  | .const _, .const _ => .eq
  | .const _, _ => .lt
  | _, .const _ => .gt
  | .var a, .var b => compare a b
  | .var _, _ => .lt
  | _, .var _ => .gt
  | .neg a, .neg b => a.order b
  | .neg _, _ => .lt
  | _, .neg _ => .gt
  | .bin p a b, .bin q c d => (p.order q).then ((a.order c).then (b.order d))

end Formula

end Sentential
