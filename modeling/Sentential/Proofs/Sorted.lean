import Mathlib.Data.List.Perm.Basic
import Sentential.Names

/-!
# Sorting as a normal form

Sorted lists are the same exactly for permutations of one list, if the order tells
all members apart. Without repetitions they are determined by their members, and
they are no longer than any other list that has those members.
-/

set_option autoImplicit false

namespace Sentential

namespace Sorted

variable {α : Type} (cmp : α → α → Ordering) [Std.TransCmp cmp]

theorem mergeSort_increasing (as : List α) :
    (as.mergeSort (fun a b => (cmp a b).isLE)).Pairwise (fun a b => (cmp a b).isLE = true) := by
  apply List.pairwise_mergeSort
  · intro a b c hab hbc
    exact Std.TransCmp.isLE_trans hab hbc
  · intro a b
    have hs : cmp b a = (cmp a b).swap := Std.OrientedCmp.eq_swap
    rw [hs]
    cases cmp a b <;> rfl

theorem mergeSort_eq_iff_perm [Std.LawfulEqCmp cmp] (as bs : List α) :
    as.mergeSort (fun a b => (cmp a b).isLE) = bs.mergeSort (fun a b => (cmp a b).isLE) ↔
      as.Perm bs := by
  have ha := List.mergeSort_perm as (fun a b => (cmp a b).isLE)
  have hb := List.mergeSort_perm bs (fun a b => (cmp a b).isLE)
  constructor
  · intro h
    rw [h] at ha
    exact ha.symm.trans hb
  · intro h
    refine List.Perm.eq_of_pairwise ?_ (mergeSort_increasing cmp as) (mergeSort_increasing cmp bs)
      ((ha.trans h).trans hb.symm)
    intro a b _ _ hab hba
    exact Std.LawfulEqCmp.eq_of_compare (Std.OrientedCmp.isLE_antisymm hab hba)

theorem squeeze_increasing (as : List α) (h : as.Pairwise (fun a b => (cmp a b).isLE = true)) :
    (squeeze cmp as).Pairwise (fun a b => cmp a b = .lt) := by
  fun_induction squeeze cmp as with
  | case1 a b rest _ ih => exact ih (List.pairwise_cons.mp h).2
  | case2 a b rest hab ih =>
    obtain ⟨ha, hb⟩ := List.pairwise_cons.mp h
    have hlt : cmp a b = .lt := by
      have hle := ha b (by simp)
      cases hc : cmp a b with
      | lt => rfl
      | eq => exact absurd hc hab
      | gt => simp [hc] at hle
    refine List.pairwise_cons.mpr ⟨?_, ih hb⟩
    intro x hx
    rcases List.mem_cons.mp ((squeeze_sublist cmp (b :: rest)).mem hx) with rfl | hx
    · exact hlt
    · exact Std.TransCmp.lt_of_lt_of_isLE hlt ((List.pairwise_cons.mp hb).1 x hx)
  | case3 short hs =>
    cases short with
    | nil => exact .nil
    | cons a rest =>
      cases rest with
      | nil => exact List.pairwise_singleton _ a
      | cons b rest => exact absurd rfl (hs a b rest)

theorem ofList_increasing (as : List α) :
    (ofList cmp as).Pairwise (fun a b => cmp a b = .lt) :=
  squeeze_increasing cmp _ (mergeSort_increasing cmp as)

theorem ofList_nodup (as : List α) : (ofList cmp as).Nodup := by
  refine (ofList_increasing cmp as).imp ?_
  rintro a _ hlt rfl
  exact Std.OrientedCmp.not_lt_of_lt hlt hlt

/-- A sorted list without repetition is determined by its members. -/
theorem ofList_eq_of_mem_iff [Std.LawfulEqCmp cmp] (as bs : List α)
    (h : ∀ a, a ∈ as ↔ a ∈ bs) : ofList cmp as = ofList cmp bs := by
  have hlawful : ∀ a b, cmp a b = .eq → a = b := fun _ _ => Std.LawfulEqCmp.eq_of_compare
  refine List.Perm.eq_of_pairwise ?_ (ofList_increasing cmp as) (ofList_increasing cmp bs) ?_
  · intro a b _ _ hab hba
    exact absurd hba (Std.OrientedCmp.not_lt_of_lt hab)
  · rw [List.perm_ext_iff_of_nodup (ofList_nodup cmp as) (ofList_nodup cmp bs)]
    intro a
    rw [mem_ofList hlawful, mem_ofList hlawful, h]

end Sorted

end Sentential
