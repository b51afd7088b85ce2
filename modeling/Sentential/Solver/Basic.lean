import Sentential.Solver.Error
import Sentential.Solver.Numbering
import Sentential.Solver.Search

/-!
# Solvers

A solver answers whether a table is satisfiable, or fails, and may remember
something from question to question. `SingleShot` numbers the names of each table
and searches from scratch. It may have base rows, which then belong to every
question; their numbering is kept and grows with the questions.
-/

set_option autoImplicit false

namespace Sentential

class Solver (σ : Type) where
  /-- The answer to a question, and the solver for the next one. -/
  ask : σ → Table → Except SolverError Bool × σ

/-- Base rows with the numbering in force. -/
structure Base where
  numbering : Numbering
  clauses : List (List Int32)
  deriving DecidableEq, Repr

def Base.ofTable (t : Table) : Base :=
  let numbering := Numbering.extend {} t
  ⟨numbering, numbering.clauses t⟩

/-- Whether the search finds a model. -/
def Problem.satisfiable (p : Problem) : Bool :=
  Search.satisfiable (p.clauses.map (fun clause => clause.map Int32.toInt))

structure SingleShot where
  base : Option Base := none
  deriving DecidableEq, Repr

namespace SingleShot

/-- The solver with the rows of a table as its base, if one is given. -/
def ofTable? (base : Option Table) : SingleShot :=
  ⟨base.map Base.ofTable⟩

/-- The numbered clauses that decide a question. -/
def pose (s : SingleShot) (t : Table) : Problem × SingleShot :=
  match s.base with
  | none =>
    let numbering := Numbering.extend {} t
    (⟨numbering.last.toUInt32, numbering.clauses t⟩, s)
  | some base =>
    let numbering := base.numbering.extend t
    (⟨numbering.last.toUInt32, base.clauses ++ numbering.clauses t⟩,
      ⟨some { base with numbering }⟩)

instance : Solver SingleShot where
  ask s t :=
    let (problem, next) := s.pose t
    (.ok problem.satisfiable, next)

end SingleShot

end Sentential
