import Sentential.Solver.Basic

/-!
# Solvers that fail on schedule

A schedule says which calls fail and how. A failing call counts like any other
and does not reach the solver underneath.
-/

set_option autoImplicit false

namespace Sentential

structure Faulty (σ : Type) where
  inner : σ
  /-- The failure of a call, given the number of calls before it. -/
  schedule : Nat → Option SolverError
  /-- The number of calls so far. -/
  calls : Nat := 0

namespace Faulty

variable {σ : Type}

instance [Solver σ] : Solver (Faulty σ) where
  ask s t :=
    let counted := { s with calls := s.calls + 1 }
    match s.schedule s.calls with
    | some e => (.error e, counted)
    | none =>
      let (answer, inner) := Solver.ask s.inner t
      (answer, { counted with inner })

end Faulty

end Sentential
