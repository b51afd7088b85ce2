import Sentential.Oracle
import Sentential.Solver.Kind

/-!
# Settings

The choice of a conversion strategy and of a solver, as read from a configuration
tree. A tree holds settings if it is an object whose known fields have values of
the right kind; missing fields take their defaults and unknown ones are ignored.
-/

set_option autoImplicit false

namespace Sentential

/-- A configuration tree. -/
inductive Tree where
  | null
  | bool (value : Bool)
  | integer (value : Int)
  /-- A number that is not an integer. -/
  | fraction
  | text (value : String)
  | list (items : List Tree)
  | object (fields : List (String × Tree))
  deriving Inhabited

structure Settings where
  strategy : Strategy := .distributing
  solver : SolverKind := .dpll
  /-- Whether answers are remembered. -/
  remember : Bool := false
  /-- The greatest number of remembered answers, zero being no limit. -/
  capacity : Nat := 0
  deriving DecidableEq, Repr

namespace Settings

/-- The largest capacity that settings can hold. -/
def capacityLimit : Nat := UInt64.size - 1

def readStrategy : Tree → Option Strategy
  | .text s => Strategy.ofName? s
  | _ => none

def readSolver : Tree → Option SolverKind
  | .text s => SolverKind.ofName? s
  | _ => none

def readBool : Tree → Option Bool
  | .bool b => some b
  | _ => none

def readCapacity : Tree → Option Nat
  | .integer (.ofNat n) => if n ≤ capacityLimit then some n else none
  | _ => none

/-- Reads a field, which has a default if it is missing but must not be malformed. -/
def readField {α : Type} (fields : List (String × Tree)) (name : String)
    (read : Tree → Option α) (missing : α) : Option α :=
  match fields.lookup name with
  | none => some missing
  | some t => read t

/-- The settings in a configuration tree. -/
def ofTree? : Tree → Option Settings
  | .object fields => do
    let strategy ← readField fields "cnf_strategy" readStrategy .distributing
    let solver ← readField fields "solver" readSolver .dpll
    let remember ← readField fields "cache" readBool false
    let capacity ← readField fields "cache_size" readCapacity 0
    return { strategy, solver, remember, capacity }
  | _ => none

def toTree (s : Settings) : Tree :=
  .object [
    ("cnf_strategy", .text s.strategy.name),
    ("solver", .text s.solver.name),
    ("cache", .bool s.remember),
    ("cache_size", .integer s.capacity)]

def converter (s : Settings) : Converter :=
  { strategy := s.strategy }

def createSolver (s : Settings) (base : Option Table) : Except SolverError (Layered SingleShot) :=
  s.solver.create base (if s.remember then some s.capacity else none)

/-- An oracle with these settings. The base formula, if there is one, is converted first and
belongs to every question. -/
def oracle (s : Settings) (base : Option Formula) :
    Except SolverError (Oracle (Layered SingleShot)) :=
  match base with
  | none => (s.createSolver none).map (fun solver => { solver, converter := s.converter })
  | some f =>
    let (table, converter) := s.converter.convert f
    (s.createSolver (some table)).map (fun solver => { solver, converter })

end Settings

end Sentential
