/-!
# Sorted lists as sets

A set over an ordered type is a strictly increasing list. It is built by sorting
and leaving out each member that its right neighbour repeats.
-/

set_option autoImplicit false

namespace Sentential.Sorted

variable {α : Type}

/-- Leaves out every member that compares equal to its right neighbour. -/
def squeeze (cmp : α → α → Ordering) : List α → List α
  | a :: b :: rest =>
    if cmp a b = .eq then squeeze cmp (b :: rest) else a :: squeeze cmp (b :: rest)
  | short => short

/-- The distinct members of a list in increasing order. -/
def ofList (cmp : α → α → Ordering) (as : List α) : List α :=
  squeeze cmp (as.mergeSort (fun a b => (cmp a b).isLE))

theorem squeeze_sublist (cmp : α → α → Ordering) (as : List α) :
    (squeeze cmp as).Sublist as := by
  fun_induction squeeze cmp as with
  | case1 a b rest _ ih => exact ih.cons a
  | case2 a b rest _ ih => exact ih.cons_cons a
  | case3 short => exact .refl _

theorem mem_of_mem_ofList {cmp : α → α → Ordering} {a : α} {as : List α}
    (h : a ∈ ofList cmp as) : a ∈ as := by
  simpa using (squeeze_sublist cmp _).mem h

theorem mem_squeeze {cmp : α → α → Ordering} (lawful : ∀ a b, cmp a b = .eq → a = b)
    {a : α} {as : List α} : a ∈ squeeze cmp as ↔ a ∈ as := by
  fun_induction squeeze cmp as with
  | case1 b c rest equal ih =>
    have := lawful b c equal
    simp_all
  | case2 b c rest _ ih => simp_all
  | case3 short => rfl

theorem mem_ofList {cmp : α → α → Ordering} (lawful : ∀ a b, cmp a b = .eq → a = b)
    {a : α} {as : List α} : a ∈ ofList cmp as ↔ a ∈ as := by
  simp [ofList, mem_squeeze lawful]

end Sentential.Sorted
