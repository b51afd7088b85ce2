import Sentential.Formula.Reordering

/-!
# Groups of alike sub-formulas

The inner nodes of a formula, taken in post-order, are collected into groups of
alike formulas. A group is found by a 64-bit key computed from the leaves up;
formulas with different keys are never compared, so alike formulas with a
different nesting may end up in different groups. When a key belongs to a group
of another kind, the next key of a fixed sequence is tried.

The keys of leaves are a parameter: nothing but the split into groups depends on
them.
-/

set_option autoImplicit false

namespace Sentential

namespace Formula

/-- The negations and connectives of a formula in post-order, in front of `rest`. -/
def innerNodesOnto : Formula → List Formula → List Formula
  | .neg inner, rest => inner.innerNodesOnto (.neg inner :: rest)
  | .bin op left right, rest =>
    left.innerNodesOnto (right.innerNodesOnto (.bin op left right :: rest))
  | _, rest => rest

/-- The negations and connectives of a formula in post-order, the formula itself last. -/
def innerNodes (f : Formula) : List Formula :=
  f.innerNodesOnto []

/-- The key of a formula, given the keys of leaves. Swapping two operands does not change it. -/
def key (leafKey : Formula → UInt64) : Formula → UInt64
  | .neg inner => inner.key leafKey * 123
  | .bin .or left right => (left.key leafKey + right.key leafKey) * 213
  | .bin .and left right => (left.key leafKey + right.key leafKey) * 4564
  | leaf => leafKey leaf

theorem innerNodesOnto_eq (f : Formula) (rest : List Formula) :
    f.innerNodesOnto rest = f.innerNodes ++ rest := by
  induction f generalizing rest with
  | const => rfl
  | var => rfl
  | neg inner ih =>
    simp only [innerNodes, innerNodesOnto] at *
    rw [ih, ih [neg inner], List.append_assoc]
    rfl
  | bin op left right ihl ihr =>
    simp only [innerNodes, innerNodesOnto] at *
    rw [ihl, ihl (right.innerNodesOnto [bin op left right]), ihr, ihr [bin op left right]]
    simp

@[simp] theorem innerNodes_const (value : Bool) : (const value).innerNodes = [] := rfl

@[simp] theorem innerNodes_var (name : String) : (var name).innerNodes = [] := rfl

@[simp] theorem innerNodes_neg (f : Formula) :
    (neg f).innerNodes = f.innerNodes ++ [neg f] :=
  f.innerNodesOnto_eq [neg f]

@[simp] theorem innerNodes_bin (op : Connective) (left right : Formula) :
    (bin op left right).innerNodes =
      left.innerNodes ++ right.innerNodes ++ [bin op left right] := by
  show left.innerNodesOnto (right.innerNodesOnto [bin op left right]) = _
  rw [innerNodesOnto_eq, innerNodesOnto_eq, List.append_assoc]

end Formula

/-- Alike formulas under one key, in the order in which they came. -/
structure Group where
  key : UInt64
  first : Formula
  more : List Formula
  deriving DecidableEq, Repr

namespace Group

def members (g : Group) : List Formula :=
  g.first :: g.more

def push (g : Group) (f : Formula) : Group :=
  { g with more := g.more ++ [f] }

end Group

namespace Groups

/-- The key to try when another group has the key `k`. -/
def nextKey (k : UInt64) : UInt64 :=
  k * 23 + 1

/-- The key is free, or its group is alike `f`. -/
def accepts (groups : List Group) (f : Formula) (k : UInt64) : Bool :=
  match groups.find? (fun g => g.key == k) with
  | some g => g.first.alike f
  | none => true

/-- The first of `tries` keys, counted from `k`, that accepts `f`. -/
def slot? (groups : List Group) (f : Formula) : Nat → UInt64 → Option UInt64
  | 0, _ => none
  | tries + 1, k => if accepts groups f k then some k else slot? groups f tries (nextKey k)

/-- Adds `f` to the first group that `p` selects, or opens a group with key `k`. -/
def place (p : Group → Bool) (k : UInt64) (f : Formula) : List Group → List Group
  | [] => [⟨k, f, []⟩]
  | g :: groups => if p g then g.push f :: groups else g :: place p k f groups

/-- Adds `f` under its key. One more try than there are groups finds a slot as long as the keys
do not repeat; should they repeat, the first alike group takes `f`. -/
def insert (groups : List Group) (f : Formula) (k : UInt64) : List Group :=
  match slot? groups f (groups.length + 1) k with
  | some k => place (fun g => g.key == k) k f groups
  | none => place (fun g => g.first.alike f) k f groups

/-- The inner nodes of `f` in groups, ordered by their first member. -/
def ofFormula (leafKey : Formula → UInt64) (f : Formula) : List Group :=
  f.innerNodes.foldl (fun groups g => insert groups g (g.key leafKey)) []

end Groups

/-- Groups the inner nodes of one formula after another. -/
structure Finder where
  /-- The groups that were not handed out yet. -/
  pending : List Group := []
  deriving DecidableEq, Repr

namespace Finder

def add (leafKey : Formula → UInt64) (finder : Finder) (f : Formula) : Finder :=
  ⟨Groups.insert finder.pending f (f.key leafKey)⟩

/-- Adds the inner nodes of a formula on the way from its leaves up. -/
def visit (leafKey : Formula → UInt64) (finder : Finder) : Formula → Finder
  | .neg inner => (finder.visit leafKey inner).add leafKey (.neg inner)
  | .bin op left right =>
    ((finder.visit leafKey left).visit leafKey right).add leafKey (.bin op left right)
  | _ => finder

/-- Visits a formula and hands out all groups, so that none of them is pending any more. -/
def find (leafKey : Formula → UInt64) (finder : Finder) (f : Formula) :
    List (List Formula) × Finder :=
  ((finder.visit leafKey f).pending.map Group.members, ⟨[]⟩)

/-- The groups of several formulas, found one after the other. -/
def findAll (leafKey : Formula → UInt64) (finder : Finder) :
    List Formula → List (List (List Formula)) × Finder
  | [] => ([], finder)
  | f :: fs =>
    let found := finder.find leafKey f
    let rest := found.2.findAll leafKey fs
    (found.1 :: rest.1, rest.2)

end Finder

end Sentential
