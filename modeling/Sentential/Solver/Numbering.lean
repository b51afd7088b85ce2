import Sentential.Clause.Table

/-!
# Numbering of names

Names get the numbers 1, 2, 3 and so on in the order in which they become known.
The new names of a table become known in increasing order, so the numbers do not
depend on the order of its rows. A number once given is never changed.

Numbers are signed words of 32 bits and are counted up without a check. There are
2³¹ - 1 positive ones; the name after them gets the least negative number, and
names share numbers once all words are used.
-/

set_option autoImplicit false

namespace Sentential

structure Numbering where
  /-- The known names in the order in which they became known. -/
  names : List String := []
  deriving DecidableEq, Repr

/-- Clauses over the numbers from 1 to `highest`, a negative number being a negated variable. -/
structure Problem where
  highest : UInt32
  clauses : List (List Int32)
  deriving DecidableEq, Repr

namespace Numbering

/-- The number that was given last, or zero. -/
def last (n : Numbering) : Int32 := Int32.ofNat n.names.length

/-- Makes the names of a table known. -/
def extend (n : Numbering) (t : Table) : Numbering :=
  ⟨n.names ++ t.names.filter (fun name => !n.names.contains name)⟩

/-- The number of a known name, one more than the last number before it. -/
def number (n : Numbering) (name : String) : Int32 :=
  Int32.ofNat (n.names.idxOf name) + 1

def signed (n : Numbering) (l : Literal) : Int32 :=
  if l.negated then -n.number l.name else n.number l.name

def clauses (n : Numbering) (t : Table) : List (List Int32) :=
  t.rows.map (fun row => row.map n.signed)

end Numbering

end Sentential
