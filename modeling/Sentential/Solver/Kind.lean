import Sentential.Solver.Memo
import Sentential.Text.Blank

/-!
# Choice of a solver

Solvers are chosen by name and may be given base rows and a memo. The second
kind is an external program that this library does not include, so choosing it
fails.
-/

set_option autoImplicit false

namespace Sentential

inductive SolverKind where
  | dpll
  | cryptominisat
  deriving DecidableEq, Repr

namespace SolverKind

def name : SolverKind → String
  | .dpll => "dpll"
  | .cryptominisat => "crypto_mini_sat"

/-- The kind with exactly this name. -/
def ofName? (s : String) : Option SolverKind :=
  [dpll, cryptominisat].find? (fun kind => kind.name == s)

/-- The text names no kind of solver. -/
structure Unknown where
  keyword : String
  deriving DecidableEq, Repr

def Unknown.message (e : Unknown) : String :=
  "unknown solver type: " ++ e.keyword

/-- Reads a kind's name without regard to surrounding blanks and case; the second kind's name may
be written without underscores. -/
def parse (text : String) : Except Unknown SolverKind :=
  let keyword := Text.keyword text
  if keyword = "cryptominisat" then .ok .cryptominisat
  else match ofName? keyword with
  | some kind => .ok kind
  | none => .error ⟨keyword⟩

end SolverKind

/-- A solver with or without a memo. -/
inductive Layered (σ : Type) where
  | bare (solver : σ)
  | remembering (memo : Memo σ)

namespace Layered

variable {σ : Type}

/-- Puts a memo in front of a solver if its capacity is given. -/
def ofCapacity? (solver : σ) : Option Nat → Layered σ
  | none => .bare solver
  | some capacity => .remembering { inner := solver, capacity }

/-- The solver under the memo. -/
def inner : Layered σ → σ
  | .bare solver => solver
  | .remembering memo => memo.inner

instance [Solver σ] : Solver (Layered σ) where
  ask s t :=
    match s with
    | .bare solver =>
      let (answer, next) := Solver.ask solver t
      (answer, .bare next)
    | .remembering memo =>
      let (answer, next) := Solver.ask memo t
      (answer, .remembering next)

end Layered

/-- A solver of the given kind, with base rows if `base` is given and with a memo if its capacity
is given. -/
def SolverKind.create (kind : SolverKind) (base : Option Table) (capacity : Option Nat) :
    Except SolverError (Layered SingleShot) :=
  match kind with
  | .dpll => .ok (Layered.ofCapacity? (SingleShot.ofTable? base) capacity)
  | .cryptominisat => .error (.unavailable "built without the cryptominisat feature")

end Sentential
