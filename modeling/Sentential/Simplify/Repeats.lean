import Sentential.Formula.Groups
import Sentential.Formula.Text
import Sentential.Simplify.Compact
import Sentential.Notice

/-!
# Repeated parts

A compound part that occurs several times hides laws that compare leaves. Each
group of repeated parts is masked by one variable, the masked formula is
compacted, and the part is put back. This is repeated while it changes
anything, for a limited number of passes.
-/

set_option autoImplicit false

namespace Sentential

/-- Puts `replacement` in the place of every occurrence of one of `targets`. -/
def Formula.substitute (f : Formula) (targets : List Formula) (replacement : Formula) : Formula :=
  if f ∈ targets then replacement
  else match f with
  | .const value => .const value
  | .var name => .var name
  | .neg inner => .neg (inner.substitute targets replacement)
  | .bin op left right =>
    .bin op (left.substitute targets replacement) (right.substitute targets replacement)

namespace Simplify.Repeats

open Formula

/-- The first unused name among `name`, `name_`, `name__` and so on, up to `tries` steps away. -/
def unused (used : List String) : Nat → String → String
  | 0, name => name
  | tries + 1, name => if name ∈ used then unused used tries (name.push '_') else name

/-- A variable that does not occur in `f`. -/
def mask (f : Formula) : Formula :=
  .var (unused f.names f.names.length "__TMP_REPLACE__")

/-- The groups with more than one member, those with the longest text first. -/
def repeated (leafKey : Formula → UInt64) (f : Formula) : List Group :=
  ((Groups.ofFormula leafKey f).filter (fun g => !g.more.isEmpty)).mergeSort
    (fun g h => decide (h.first.textLength ≤ g.first.textLength))

/-- Compacts `f` with the members of a group masked; nothing if that only reorders it. -/
def attempt (mask f : Formula) (group : Group) : Option Formula :=
  let masked := f.substitute group.members mask
  let compacted := Compact.run masked
  if masked.alike compacted then none
  else some (compacted.substitute [mask] group.first)

/-- Tries all groups of `f` in turn; nothing if no attempt changed the formula. -/
def pass (leafKey : Formula → UInt64) (mask f : Formula) : Option Formula :=
  (repeated leafKey f).foldl
    (fun changed group => (attempt mask (changed.getD f) group).or changed) none

/-- Up to `limit` passes, as long as they change something. -/
def passes (leafKey : Formula → UInt64) (mask : Formula) (total : Nat) :
    Nat → Formula → Logged Formula
  | 0, f => do
    Logged.report (.passLimit total)
    return f
  | left + 1, f =>
    match pass leafKey mask f with
    | none => pure f
    | some g => passes leafKey mask total left g

/-- The number of passes after which the search is stopped. -/
def limit : Nat := 50

/-- Simplifies by masking repeated parts, given the keys of leaves. -/
def runWith (leafKey : Formula → UInt64) (f : Formula) : Logged Formula :=
  passes leafKey (mask f) limit limit f

end Simplify.Repeats

end Sentential
