import Mathlib.Algebra.Group.Nat.Defs
import Mathlib.Data.List.Perm.Subperm
import Sentential.Proofs.Clause.Table
import Sentential.Proofs.Sorted
import Sentential.Proofs.Solver.Search
import Sentential.Solver.Basic

/-!
# Numbers in the place of names

A known name keeps its number when further names become known. As long as fewer
than 2³¹ names are known, the numbers are their places in the list of known names,
counted from one, and no sign is lost. Under a numbering that knows every name of a
table, valuations of the names and assignments of the numbers then correspond, so
the numbered clauses can be satisfied exactly if the table can. A numbering knows no
name twice, so it is enough that the names are all among fewer than 2³¹ distinct
ones.
-/

set_option autoImplicit false

namespace Sentential
open Search

/-- There are fewer distinct names than words of 32 bits that are not negative. -/
def Numberable (names : List String) : Prop :=
  (Names.ofList names).length < 2 ^ 31

theorem Numberable.length_lt {names known : List String} (h : Numberable names)
    (hd : known.Nodup) (hs : known ⊆ names) : known.length < 2 ^ 31 := by
  refine Nat.lt_of_le_of_lt (hd.subperm (fun name hn => ?_)).length_le h
  exact (Names.mem_ofList name names).mpr (hs hn)

theorem numberable_of_length {names : List String} (h : names.length < 2 ^ 31) :
    Numberable names := by
  have hd : (Names.ofList names).Nodup := Sorted.ofList_nodup compare names
  refine Nat.lt_of_le_of_lt (hd.subperm (fun name hn => ?_)).length_le h
  exact (Names.mem_ofList name names).mp hn

theorem Numberable.mono {names others : List String} (h : Numberable others)
    (hs : names ⊆ others) : Numberable names :=
  h.length_lt (Sorted.ofList_nodup compare names)
    (fun name hn => hs ((Names.mem_ofList name names).mp hn))

/-- Tables have no more names than literals. -/
theorem numberable_of_literals (ts : List Table)
    (h : (ts.flatMap Table.rows).flatten.length < 2 ^ 31) :
    Numberable (ts.flatMap Table.names) := by
  have hl : ((ts.flatMap Table.rows).flatten.map Literal.name).length < 2 ^ 31 := by
    rwa [List.length_map]
  refine (numberable_of_length hl).mono (fun name hn => ?_)
  obtain ⟨t, ht, hn⟩ := List.mem_flatMap.mp hn
  obtain ⟨row, hr, l, hl, rfl⟩ := (t.mem_names name).mp hn
  refine List.mem_map_of_mem (List.mem_flatten.mpr ⟨row, ?_, hl⟩)
  exact List.mem_flatMap.mpr ⟨t, ht, hr⟩

theorem Table.names_nodup (t : Table) : t.names.Nodup :=
  Sorted.ofList_nodup compare _

namespace Numbering

theorem mem_extend (n : Numbering) (t : Table) (name : String) :
    name ∈ (n.extend t).names ↔ name ∈ n.names ∨ name ∈ t.names := by
  by_cases hn : name ∈ n.names <;> simp [extend, hn]

theorem extend_nodup (n : Numbering) (t : Table) (hn : n.names.Nodup) :
    (n.extend t).names.Nodup := by
  rw [extend, List.nodup_append]
  refine ⟨hn, t.names_nodup.filter _, ?_⟩
  rintro name hm _ hf rfl
  simp [hm] at hf

theorem number_extend (n : Numbering) (t : Table) (name : String) (hn : name ∈ n.names) :
    (n.extend t).number name = n.number name := by
  rw [number, number, extend, List.idxOf_append_of_mem hn]

theorem clauses_append (n : Numbering) (t u : Table) :
    n.clauses (t.append u) = n.clauses t ++ n.clauses u :=
  List.map_append

/-- Base rows that were numbered early need not be numbered again. -/
theorem clauses_extend (n : Numbering) (t u : Table) (hn : t.names ⊆ n.names) :
    (n.extend u).clauses t = n.clauses t := by
  apply List.map_congr_left
  intro row hr
  apply List.map_congr_left
  intro l hl
  have hl : l.name ∈ n.names := hn ((t.mem_names l.name).mpr ⟨row, hr, l, hl, rfl⟩)
  rw [signed, signed, number_extend n u l.name hl]

def valuation (n : Numbering) (a : Assignment) : Valuation :=
  fun name => a (n.names.idxOf name + 1)

/-- Numbers of no name are false. -/
def assignment (n : Numbering) (v : Valuation) : Assignment :=
  fun i => (n.names[i - 1]?.map v).getD false

theorem valuation_assignment (n : Numbering) (v : Valuation) (name : String)
    (hn : name ∈ n.names) : n.valuation (n.assignment v) name = v name := by
  have hi : n.names[n.names.idxOf name]? = some name := List.getElem?_idxOf hn
  rw [valuation, assignment, Nat.add_sub_cancel, hi]
  rfl

section Bounded

variable (n : Numbering) (hl : n.names.length < 2 ^ 31)
include hl

theorem toInt_number (name : String) (hn : name ∈ n.names) :
    (n.number name).toInt = n.names.idxOf name + 1 := by
  have hi := List.idxOf_lt_length_of_mem hn
  have hnumber : n.number name = Int32.ofNat (n.names.idxOf name + 1) :=
    (Int32.ofNat_add (n.names.idxOf name) 1).symm
  rw [hnumber, Int32.toInt_ofNat_of_lt (by omega), Int.natCast_succ]

/-- A sign is lost only by the least number, and that one is not in use. -/
theorem toInt_signed (l : Literal) (hn : l.name ∈ n.names) :
    (n.signed l).toInt =
      if l.negated then -(n.names.idxOf l.name + 1 : Int) else n.names.idxOf l.name + 1 := by
  have hi := List.idxOf_lt_length_of_mem hn
  rw [signed]
  split
  · rw [Int32.toInt_neg, n.toInt_number hl l.name hn]
    exact Int.bmod_eq_of_le (by omega) (by omega)
  · exact n.toInt_number hl l.name hn

theorem signed_chosen (a : Assignment) (l : Literal) (hn : l.name ∈ n.names) :
    a (n.signed l).toInt.natAbs = decide (0 < (n.signed l).toInt) ↔
      l.holds (n.valuation a) = true := by
  rw [n.toInt_signed hl l hn]
  by_cases hneg : l.negated
  · have hs : ¬(0 : Int) < -(n.names.idxOf l.name + 1 : Int) := by omega
    have ha : (-(n.names.idxOf l.name + 1 : Int)).natAbs = n.names.idxOf l.name + 1 := by omega
    simp only [if_pos hneg, decide_eq_false hs, ha]
    simp [Literal.holds, valuation, hneg]
  · have hs : (0 : Int) < (n.names.idxOf l.name + 1 : Int) := by omega
    have ha : (n.names.idxOf l.name + 1 : Int).natAbs = n.names.idxOf l.name + 1 := by omega
    simp only [if_neg hneg, decide_eq_true hs, ha]
    simp [Literal.holds, valuation, hneg]

theorem clauses_met (a : Assignment) (t : Table) (hn : t.names ⊆ n.names) :
    (∀ ns ∈ (n.clauses t).map (fun clause => clause.map Int32.toInt), Meets a ns) ↔
      t.holds (n.valuation a) = true := by
  rw [Table.holds_iff, List.forall_mem_map, clauses, List.forall_mem_map]
  refine forall₂_congr (fun row hr => ?_)
  have hknown (l : Literal) (hm : l ∈ row) : l.name ∈ n.names :=
    hn ((t.mem_names l.name).mpr ⟨row, hr, l, hm, rfl⟩)
  simp only [Meets, List.mem_map, exists_exists_and_eq_and]
  exact exists_congr (fun l => and_congr_right (fun hm => n.signed_chosen hl a l (hknown l hm)))

theorem satisfiable_clauses (t : Table) (hn : t.names ⊆ n.names) (highest : UInt32) :
    (Problem.mk highest (n.clauses t)).satisfiable = true ↔ ∃ v, t.holds v = true := by
  rw [Problem.satisfiable, satisfiable_exact]
  constructor
  · rintro ⟨a, ha⟩
    exact ⟨n.valuation a, (n.clauses_met hl a t hn).mp ha⟩
  · rintro ⟨v, hv⟩
    refine ⟨n.assignment v, (n.clauses_met hl _ t hn).mpr ?_⟩
    apply Table.holds_transfer v _ t _ hv
    intro name hm
    exact (n.valuation_assignment v name (hn hm)).symm

end Bounded

end Numbering

end Sentential
