import Sentential.Clause.Table
import Sentential.Formula.Negations
import Sentential.Text.Blank

/-!
# Conversion to clauses

Both strategies move negations inwards on the way down and turn a conjunction
into the rows of both operands. They differ in disjunctions. Distribution joins
every row of one operand with every row of the other, which keeps the meaning
and may grow exponentially. Replacement does so only if one operand is a literal;
otherwise a fresh variable decides between the rows of the two operands, which
keeps satisfiability and the models on the other names.

The constants are literals with names of their own, fixed by two rows in front
of a table that needs them.
-/

set_option autoImplicit false

namespace Sentential

inductive Strategy where
  | distributing
  | replacing
  deriving DecidableEq, Repr

namespace Strategy

def name : Strategy → String
  | .distributing => "recursive"
  | .replacing => "recursive_replacing"

/-- The strategy with exactly this name. -/
def ofName? (s : String) : Option Strategy :=
  [distributing, replacing].find? (fun strategy => strategy.name == s)

/-- The text names no strategy. -/
structure Unknown where
  keyword : String
  deriving DecidableEq, Repr

def Unknown.message (e : Unknown) : String :=
  "unknown CNF strategy: " ++ e.keyword

/-- Reads a strategy's name without regard to surrounding blanks and case. -/
def parse (text : String) : Except Unknown Strategy :=
  match ofName? (Text.keyword text) with
  | some strategy => .ok strategy
  | none => .error ⟨Text.keyword text⟩

end Strategy

namespace Conversion

/-- The name that stands for a constant. -/
def constantName : Bool → String
  | true => "PSEUDO_TRUE"
  | false => "PSEUDO_FALSE"

/-- The rows that give the constants' names their values. -/
def constantRows : List Row :=
  [[.negative (constantName false)], [.positive (constantName true)]]

/-- The name of the `n`-th auxiliary variable. -/
def auxiliary (n : Nat) : String :=
  "temp_" ++ n.repr

/-- The formula has a connective below its outermost negations. -/
def isCompound : Formula → Bool
  | .neg inner => isCompound inner
  | .bin .. => true
  | _ => false

/-- Every row of `left` joined with every row of `right`. -/
def distribute (left right : List Row) : List Row :=
  left.flatMap (fun p => right.map (fun q => p ++ q))

/-- The rows of `f`, or of its negation if `positive` is false, when `next` is the number of the
next auxiliary variable; and the number after those that were used. -/
def rows (s : Strategy) (positive : Bool) (next : Nat) : Formula → List Row × Nat
  | .const value => ([[⟨constantName value, !positive⟩]], next)
  | .var name => ([[⟨name, !positive⟩]], next)
  | .neg inner => rows s (!positive) next inner
  | .bin op left right =>
    match op.under positive with
    | .and =>
      let (ls, next) := rows s positive next left
      let (rs, next) := rows s positive next right
      (ls ++ rs, next)
    | .or =>
      if s = .replacing ∧ isCompound left ∧ isCompound right then
        let (ls, next') := rows s positive (next + 1) left
        let (rs, next'') := rows s positive next' right
        (ls.map (fun row => .negative (auxiliary next) :: row) ++
          rs.map (fun row => .positive (auxiliary next) :: row), next'')
      else
        let (ls, next) := rows s positive next left
        let (rs, next) := rows s positive next right
        (distribute ls rs, next)

end Conversion

/-- A converter remembers which auxiliary names it has used, so that it never repeats one. -/
structure Converter where
  strategy : Strategy
  /-- The number of the next auxiliary variable. It counts up from one and stands for a machine word,
  so what is said about a converter is about runs in which it stays below 2⁶⁴. -/
  next : Nat := 1
  deriving DecidableEq, Repr

/-- The clause table of a formula. -/
def Converter.convert (c : Converter) (f : Formula) : Table × Converter :=
  let (rows, next) := Conversion.rows c.strategy true c.next f
  (⟨if f.hasConstant then Conversion.constantRows ++ rows else rows⟩, { c with next })

end Sentential
