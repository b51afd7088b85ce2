import Sentential.Clause.Literal
import Sentential.Formula.Chain

/-!
# Clause tables

A row is a disjunction of literals and a table a conjunction of rows. Rows and
literals keep the order in which they were given, but that order carries no
meaning: two tables are the same when their rows, and the literals in each row,
agree as multisets. The digest of a table is built from sums, so the order does
not affect it either.
-/

set_option autoImplicit false

namespace Sentential

abbrev Row := List Literal

structure Table where
  rows : List Row := []
  deriving DecidableEq, Repr

namespace Table

def empty : Table := {}

def isEmpty (t : Table) : Bool := t.rows.isEmpty

def rowCount (t : Table) : Nat := t.rows.length

def push (t : Table) (row : Row) : Table := ⟨t.rows ++ [row]⟩

/-- The rows of both tables: their conjunction. -/
def append (t other : Table) : Table := ⟨t.rows ++ other.rows⟩

def row? (t : Table) (i : Nat) : Option Row := t.rows[i]?

def literal? (t : Table) (i j : Nat) : Option Literal :=
  (t.row? i).bind (fun row => row[j]?)

/-- The names in the table, increasing and without repetition. -/
def names (t : Table) : List String :=
  Names.ofList (t.rows.flatten.map Literal.name)

/-- An empty row is false and an empty table true. -/
def toFormula (t : Table) : Formula :=
  Connective.join .and (t.rows.map (fun row => Connective.join .or (row.map Literal.toFormula)))

/-- One line for each row. -/
def text (t : Table) : String :=
  String.join (t.rows.map (fun row => "[" ++ ", ".intercalate (row.map Literal.text) ++ "]\n"))

/-- Every row has a true literal. -/
def holds (v : Valuation) (t : Table) : Bool :=
  t.rows.all (fun row => row.any (Literal.holds v))

/-- The rows in order, each with its literals in order. -/
def sorted (t : Table) : List Row :=
  (t.rows.map (fun row => row.mergeSort (fun a b => (a.order b).isLE))).mergeSort
    (fun a b => (List.compareLex Literal.order a b).isLE)

/-- The tables agree up to the order of rows and of the literals in them. -/
def same (t other : Table) : Bool :=
  t.sorted == other.sorted

/-- A digest of the table, given digests of literals. -/
def digestWith (literalDigest : Literal → UInt64) (t : Table) : UInt64 :=
  let rowDigest (row : Row) : UInt64 := row.foldl (fun sum l => sum + literalDigest l) 675433
  t.rows.foldl (fun sum row => sum + rowDigest row * 5434543) 3244324 * 573495334

end Table

end Sentential
