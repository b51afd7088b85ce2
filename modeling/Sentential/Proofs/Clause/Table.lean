import Sentential.Clause.Table

/-!
# What decides a table

A table depends on the values of its own names only, and on its rows only up to
order. Tables that compare as the same multisets therefore have the same models.
-/

set_option autoImplicit false

namespace Sentential.Table

theorem holds_iff (v : Valuation) (t : Table) :
    t.holds v = true ↔ ∀ row ∈ t.rows, ∃ l ∈ row, l.holds v = true := by
  simp [holds]

theorem mem_names (t : Table) (name : String) :
    name ∈ t.names ↔ ∃ row ∈ t.rows, ∃ l ∈ row, l.name = name := by
  rw [names, Names.mem_ofList]
  constructor
  · intro h
    obtain ⟨l, hl, rfl⟩ := List.mem_map.mp h
    obtain ⟨row, hr, hl⟩ := List.mem_flatten.mp hl
    exact ⟨row, hr, l, hl, rfl⟩
  · rintro ⟨row, hr, l, hl, rfl⟩
    exact List.mem_map.mpr ⟨l, List.mem_flatten.mpr ⟨row, hr, hl⟩, rfl⟩

theorem holds_transfer (v w : Valuation) (t : Table)
    (hn : ∀ name ∈ t.names, v name = w name) (h : t.holds v = true) : t.holds w = true := by
  rw [holds_iff] at h ⊢
  intro row hr
  obtain ⟨l, hl, hv⟩ := h row hr
  refine ⟨l, hl, ?_⟩
  rw [Literal.holds, ← hn l.name ((t.mem_names l.name).mpr ⟨row, hr, l, hl, rfl⟩)]
  exact hv

@[simp] theorem holds_empty (v : Valuation) : empty.holds v = true := rfl

theorem holds_append (v : Valuation) (t u : Table) :
    (t.append u).holds v = (t.holds v && u.holds v) :=
  List.all_append

theorem names_append (t u : Table) (name : String) :
    name ∈ (t.append u).names ↔ name ∈ t.names ∨ name ∈ u.names := by
  simp only [mem_names, append, List.mem_append, or_and_right, exists_or]

theorem names_subset_flatMap (ts : List Table) (t : Table) (h : t ∈ ts) :
    t.names ⊆ ts.flatMap names :=
  fun _ hn => List.mem_flatMap.mpr ⟨t, h, hn⟩

theorem same_symm (t u : Table) (h : t.same u = true) : u.same t = true := by
  rw [same, beq_iff_eq] at h ⊢
  exact h.symm

theorem same_row (t u : Table) (h : t.same u = true) (row : Row) (hr : row ∈ u.rows) :
    ∃ other ∈ t.rows, other.Perm row := by
  rw [same, beq_iff_eq] at h
  have hs : row.mergeSort (fun a b => (a.order b).isLE) ∈ u.sorted := by
    rw [sorted, List.mem_mergeSort]
    exact List.mem_map_of_mem hr
  rw [← h, sorted, List.mem_mergeSort] at hs
  obtain ⟨other, ho, he⟩ := List.mem_map.mp hs
  refine ⟨other, ho, ?_⟩
  have hp := List.mergeSort_perm other (fun a b => (a.order b).isLE)
  rw [he] at hp
  exact hp.symm.trans (List.mergeSort_perm row _)

theorem same_holds (v : Valuation) (t u : Table) (h : t.same u = true)
    (ht : t.holds v = true) : u.holds v = true := by
  rw [holds_iff] at ht ⊢
  intro row hr
  obtain ⟨other, ho, hp⟩ := same_row t u h row hr
  obtain ⟨l, hl, hv⟩ := ht other ho
  exact ⟨l, hp.mem_iff.mp hl, hv⟩

theorem same_models (v : Valuation) (t u : Table) (h : t.same u = true) :
    t.holds v = true ↔ u.holds v = true :=
  ⟨same_holds v t u h, same_holds v u t (same_symm t u h)⟩

end Sentential.Table
