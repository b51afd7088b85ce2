import Sentential.Clause.Conversion
import Sentential.Solver.Basic

/-!
# Questions about formulas

An oracle converts formulas to tables and asks a solver about them. It keeps its
converter from question to question, so that auxiliary names are not repeated.
Two formulas are equivalent if no valuation makes exactly one of them true.
-/

set_option autoImplicit false

namespace Sentential

/-- True where exactly one of the formulas is. -/
def Formula.difference (f g : Formula) : Formula :=
  .or (.and f (.neg g)) (.and (.neg f) g)

structure Oracle (σ : Type) where
  solver : σ
  converter : Converter := { strategy := .replacing }

namespace Oracle

variable {σ : Type} [Solver σ]

/-- Asks whether a formula is satisfiable. -/
def satisfiable (o : Oracle σ) (f : Formula) : Except SolverError Bool × Oracle σ :=
  let (table, converter) := o.converter.convert f
  let (answer, solver) := Solver.ask o.solver table
  (answer, { solver, converter })

/-- Asks whether two formulas are equivalent. -/
def equivalent (o : Oracle σ) (f g : Formula) : Except SolverError Bool × Oracle σ :=
  let (answer, next) := o.satisfiable (f.difference g)
  (answer.map (!·), next)

end Oracle

end Sentential
