import Sentential.Formula.Gauge

/-!
# Moving negations

De Morgan's laws in both directions. `pushNegations` moves every negation down
to a leaf; `pullNegations` takes a negation out of each chain whose operands
are all negated.
-/

set_option autoImplicit false

namespace Sentential

/-- The connective that a formula shows under an even or an odd number of negations. -/
def Connective.under (positive : Bool) (op : Connective) : Connective :=
  if positive then op else op.dual

namespace Formula

/-- The formula, or its negation if `positive` is false, with negations on leaves only. -/
def pushUnder (positive : Bool) : Formula → Formula
  | .neg inner => inner.pushUnder (!positive)
  | .bin op left right =>
    .bin (op.under positive) (left.pushUnder positive) (right.pushUnder positive)
  | leaf => if positive then leaf else .neg leaf

/-- The formula with negations on leaves only. -/
def pushNegations (f : Formula) : Formula :=
  f.pushUnder true

/-- The chain of `op` over `ts`, as one negation of the dual chain if every operand is negated. -/
def joinNegated (op : Connective) (ts : List Formula) : Formula :=
  match ts.mapM negated? with
  | some inners => .neg (op.dual.join inners)
  | none => op.join ts

/-- Takes a negation out of each chain whose operands, treated likewise, are all negated. -/
def pullNegations : Formula → Formula
  | .neg inner => .neg inner.pullNegations
  | .bin op left right =>
    joinNegated op (((bin op left right).terms op).attach.map (fun t => t.val.pullNegations))
  | leaf => leaf
termination_by f => f.size
decreasing_by
  · simp [Gauge.size]
  · exact size_lt_of_mem_terms t.property

@[simp] theorem pullNegations_const (value : Bool) :
    (const value).pullNegations = const value := by
  rw [pullNegations] <;> simp

@[simp] theorem pullNegations_var (name : String) : (var name).pullNegations = var name := by
  rw [pullNegations] <;> simp

@[simp] theorem pullNegations_neg (f : Formula) :
    (neg f).pullNegations = neg f.pullNegations := by
  rw [pullNegations]

theorem pullNegations_bin (op : Connective) (left right : Formula) :
    (bin op left right).pullNegations =
      joinNegated op (((bin op left right).terms op).map pullNegations) := by
  rw [pullNegations, List.attach_map_val]

end Formula

end Sentential
