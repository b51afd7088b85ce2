import Sentential.Proofs.Clause.Table
import Sentential.Proofs.Sorted

/-!
# Tables as multisets of multisets

Sorting by a lawful order is a normal form for permutations, so the comparison
of two tables through their sorted rows is equality as multisets of rows, each
row being a multiset of literals. The digest adds up what literals and rows
contribute and does not sort; it agrees on such tables whatever the digests of
literals are.
-/

set_option autoImplicit false

namespace Sentential

namespace Literal

instance : Std.TransCmp order :=
  inferInstanceAs (Std.TransCmp (compareLex (compareOn name) (compareOn negated)))

theorem eq_of_order (l m : Literal) (h : order l m = .eq) : l = m := by
  obtain ⟨a, b⟩ := l
  obtain ⟨c, d⟩ := m
  simp only [order, compareLex, compareOn, Ordering.then_eq_eq] at h
  rw [Std.LawfulEqOrd.eq_of_compare h.1, Std.LawfulEqOrd.eq_of_compare h.2]

instance : Std.LawfulEqCmp order where
  compare_self := by simp [order, compareLex, compareOn]
  eq_of_compare := eq_of_order _ _

end Literal

namespace Row

/-- The literals of a row in order. -/
def sorted (row : Row) : Row :=
  row.mergeSort (fun a b => (a.order b).isLE)

theorem sorted_eq_iff_perm (row other : Row) : sorted row = sorted other ↔ row.Perm other :=
  Sorted.mergeSort_eq_iff_perm Literal.order row other

theorem map_sorted_eq_iff (rows others : List Row) :
    rows.map sorted = others.map sorted ↔ List.Forall₂ List.Perm rows others := by
  rw [← List.forall₂_eq_eq_eq, List.forall₂_map_left_iff, List.forall₂_map_right_iff]
  simp only [sorted_eq_iff_perm]

end Row

namespace Table

theorem same_iff_sorted_rows (t u : Table) :
    t.same u = true ↔ (t.rows.map Row.sorted).Perm (u.rows.map Row.sorted) := by
  rw [same, beq_iff_eq]
  exact Sorted.mergeSort_eq_iff_perm (List.compareLex Literal.order) _ _

theorem same_iff_rows (t u : Table) :
    t.same u = true ↔
      ∃ rows : List Row, rows.Perm u.rows ∧ List.Forall₂ List.Perm t.rows rows := by
  have hc := congrFun (congrFun (List.eq_map_comp_perm Row.sorted) (t.rows.map Row.sorted)) u.rows
  rw [same_iff_sorted_rows, ← hc]
  constructor
  · rintro ⟨rows, he, hp⟩
    exact ⟨rows, hp, (Row.map_sorted_eq_iff t.rows rows).mp he⟩
  · rintro ⟨rows, hp, hf⟩
    exact ⟨rows, (Row.map_sorted_eq_iff t.rows rows).mpr hf, hp⟩

/-- What a row adds to the digest of a table. -/
def rowDigest (literalDigest : Literal → UInt64) (row : Row) : UInt64 :=
  row.foldl (fun sum l => sum + literalDigest l) 675433

theorem foldl_add_perm {α : Type} (weight : α → UInt64) (start : UInt64) (as bs : List α)
    (h : as.Perm bs) : as.foldl (fun sum a => sum + weight a) start =
      bs.foldl (fun sum a => sum + weight a) start := by
  have : RightCommutative (fun (sum : UInt64) a => sum + weight a) :=
    ⟨fun sum a b => by rw [UInt64.add_assoc, UInt64.add_comm (weight a), UInt64.add_assoc]⟩
  exact h.foldl_eq start

theorem rowDigest_sorted (literalDigest : Literal → UInt64) (row : Row) :
    rowDigest literalDigest (Row.sorted row) = rowDigest literalDigest row :=
  foldl_add_perm literalDigest 675433 _ _ (List.mergeSort_perm row _)

theorem digestWith_eq (literalDigest : Literal → UInt64) (t : Table) :
    t.digestWith literalDigest =
      (t.rows.map Row.sorted).foldl
        (fun sum row => sum + rowDigest literalDigest row * 5434543) 3244324 * 573495334 := by
  simp only [List.foldl_map, rowDigest_sorted]
  rfl

theorem digestWith_eq_of_same (literalDigest : Literal → UInt64) (t u : Table)
    (h : t.same u = true) : t.digestWith literalDigest = u.digestWith literalDigest := by
  rw [digestWith_eq, digestWith_eq,
    foldl_add_perm _ _ _ _ ((same_iff_sorted_rows t u).mp h)]

/-- Two tables are the same exactly if the rows of the second can be put in an order in which each
is a permutation of the row of the first in its place. Such tables have the same digest, whatever
the digests of literals are. -/
theorem sameness_decides_multisets (t u : Table) :
    (t.same u = true ↔
      ∃ rows : List Row, rows.Perm u.rows ∧ List.Forall₂ List.Perm t.rows rows) ∧
    (t.same u = true → ∀ literalDigest : Literal → UInt64,
      t.digestWith literalDigest = u.digestWith literalDigest) := by
  constructor
  · exact same_iff_rows t u
  · intro h literalDigest
    exact digestWith_eq_of_same literalDigest t u h

theorem sameness_decides_multisets_swapped :
    (Table.mk [[.positive "a", .negative "b"], [.positive "c"]]).same
        ⟨[[.positive "c"], [.negative "b", .positive "a"]]⟩ = true ∧
      ∀ d : Literal → UInt64,
        (Table.mk [[.positive "a", .negative "b"], [.positive "c"]]).digestWith d =
          (Table.mk [[.positive "c"], [.negative "b", .positive "a"]]).digestWith d := by
  have hs : (Table.mk [[.positive "a", .negative "b"], [.positive "c"]]).same
      ⟨[[.positive "c"], [.negative "b", .positive "a"]]⟩ = true :=
    (same_iff_rows _ _).mpr ⟨[[.negative "b", .positive "a"], [.positive "c"]], .swap _ _ _,
      .cons (.swap _ _ _) (.cons (.refl _) .nil)⟩
  exact ⟨hs, (sameness_decides_multisets _ _).2 hs⟩

end Table

end Sentential
