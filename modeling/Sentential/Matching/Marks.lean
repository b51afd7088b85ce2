import Sentential.Matching

/-!
# Matching with marks

Nothing is taken out of the pool here. A mark at a position says that its member
is the partner of somebody already; a member looks for the first partner among
the positions without a mark, and marks it.
-/

set_option autoImplicit false

namespace Sentential.Matching

variable {α β : Type}

def mark {n : Nat} (marks : Vector Bool n) (i : Fin n) : Vector Bool n :=
  marks.set i.val true i.isLt

/-- The marks after `a` has marked the first position with a partner and without a mark. -/
def mark? (r : α → β → Bool) (pool : List β) (marks : Vector Bool pool.length) (a : α) :
    Option (Vector Bool pool.length) :=
  ((List.finRange pool.length).find? (fun i => !marks.get i && r a (pool.get i))).map (mark marks)

/-- Every member of the list finds a position to mark, one after the other. -/
def allMark (r : α → β → Bool) (pool : List β) (marks : Vector Bool pool.length) : List α → Bool
  | [] => true
  | a :: as =>
    match mark? r pool marks a with
    | some marks => allMark r pool marks as
    | none => false

/-- Every member of `as` has a partner of its own in `pool`, found with marks. -/
def embedsByMarks (r : α → β → Bool) (as : List α) (pool : List β) : Bool :=
  as.length ≤ pool.length && allMark r pool (.replicate pool.length false) as

/-- The two lists are partners member by member in some order, found with marks. -/
def pairsUpByMarks (r : α → β → Bool) (as : List α) (pool : List β) : Bool :=
  as.length == pool.length && allMark r pool (.replicate pool.length false) as

end Sentential.Matching
