import Sentential.Oracle
import Sentential.Notice

/-!
# Collected disjunctions

A queue collects formulas and hands out their disjunction as a balanced tree.
False adds nothing, true decides the disjunction, and a formula that is queued
already is not queued twice. A queue without formulas gives true.

The simplifying queue also asks a solver about each formula: one that allows
nothing new is left out, and one that allows all that the kept ones allow takes
their place. When the solver fails, both sides are kept.
-/

set_option autoImplicit false

namespace Sentential

/-- Joins neighbours by `or`; a last formula without a neighbour stays. -/
def orNeighbours : List Formula → List Formula
  | a :: b :: rest => .or a b :: orNeighbours rest
  | short => short

theorem length_orNeighbours_le (fs : List Formula) : (orNeighbours fs).length ≤ fs.length := by
  fun_induction orNeighbours fs with
  | case1 a b rest ih =>
    simp
    omega
  | case2 short => exact Nat.le_refl _

/-- Joins neighbours until one formula is left. -/
def balancedOr? (fs : List Formula) : Option Formula :=
  match fs with
  | [] => none
  | [f] => some f
  | a :: b :: rest => balancedOr? (.or a b :: orNeighbours rest)
termination_by fs.length
decreasing_by
  have := length_orNeighbours_le rest
  simp
  omega

structure Queue where
  /-- The queued formulas, first come first. -/
  pending : List Formula := []
  /-- True was added. -/
  certain : Bool := false
  deriving DecidableEq, Repr

namespace Queue

def empty : Queue := {}

def count (q : Queue) : Nat := q.pending.length

def isEmpty (q : Queue) : Bool := q.pending.isEmpty

def add (q : Queue) : Formula → Queue
  | .const true => { q with certain := true }
  | .const false => q
  | f => if q.certain || q.pending.contains f then q else { q with pending := q.pending ++ [f] }

def addAll (q : Queue) (fs : List Formula) : Queue :=
  fs.foldl add q

/-- The disjunction of what was added, and the queue for what comes next, which is empty. -/
def disjunction (q : Queue) : Formula × Queue :=
  (if q.certain then .const true else (balancedOr? q.pending).getD (.const true), .empty)

end Queue

/-- How a formula relates to those before it. -/
inductive Relevance where
  /-- It allows nothing new. -/
  | previous
  /-- It allows all that they allow. -/
  | current
  | both
  deriving DecidableEq, Repr

structure SimplifyingQueue (σ : Type) where
  queue : Queue := {}
  oracle : Oracle σ

namespace SimplifyingQueue

variable {σ : Type}

def add (q : SimplifyingQueue σ) (f : Formula) : SimplifyingQueue σ :=
  { q with queue := q.queue.add f }

def addAll (q : SimplifyingQueue σ) (fs : List Formula) : SimplifyingQueue σ :=
  { q with queue := q.queue.addAll fs }

def reset (q : SimplifyingQueue σ) : SimplifyingQueue σ :=
  { q with queue := .empty }

variable [Solver σ]

/-- Compares a formula with the disjunction of those before it. The second question is asked only
if the formula allows something new. -/
def relevance (o : Oracle σ) (previous current : Formula) :
    Except SolverError Relevance × Oracle σ :=
  match o.satisfiable (.and (.neg previous) current) with
  | (.error e, o) => (.error e, o)
  | (.ok false, o) => (.ok .previous, o)
  | (.ok true, o) =>
    match o.satisfiable (.and previous (.neg current)) with
    | (.error e, o) => (.error e, o)
    | (.ok false, o) => (.ok .current, o)
    | (.ok true, o) => (.ok .both, o)

/-- The state while queued formulas are compared. -/
structure Progress (σ : Type) where
  oracle : Oracle σ
  /-- The disjunction of the kept formulas, nested to the left. -/
  previous : Formula
  kept : Queue

/-- Compares one queued formula with those kept so far. -/
def consider (subject : Option String) (p : Progress σ) (f : Formula) : Logged (Progress σ) :=
  match relevance p.oracle p.previous f with
  | (.ok .previous, oracle) => ⟨{ p with oracle }, []⟩
  | (.ok .current, oracle) => ⟨⟨oracle, f, Queue.empty.add f⟩, []⟩
  | (.ok .both, oracle) => ⟨⟨oracle, .or p.previous f, p.kept.add f⟩, []⟩
  | (.error e, oracle) => ⟨⟨oracle, .or p.previous f, p.kept.add f⟩, [.undecided subject e]⟩

/-- The disjunction of what was added, and the queue for what comes next. The subject is only
mentioned in notices. -/
def disjunction (q : SimplifyingQueue σ) (subject : Option String) :
    Logged (Formula × SimplifyingQueue σ) :=
  if q.queue.certain then pure (.const true, q.reset)
  else match q.queue.pending with
  | [] => pure (.const true, q.reset)
  | first :: rest => do
    let p ← rest.foldlM (consider subject) ⟨q.oracle, first, Queue.empty.add first⟩
    return (p.kept.disjunction.1, { oracle := p.oracle })

end SimplifyingQueue

end Sentential
