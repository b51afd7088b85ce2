import Sentential.Proofs.Solver.Exactness

/-!
# A base as part of every question

A solver with a base numbers new names on top of those of the base and of all
questions before, and a memo may answer for a table with its rows in another
order. Neither shows: each answer is that of a new solver which is given the base
and the question as one table. Nothing is assumed about the questions or about
the room in the memo.
-/

set_option autoImplicit false

namespace Sentential

theorem SingleShot.new_answer (base : Option Table) (t : Table) (names : List String)
    (hnames : Numberable names) (hbase : ∀ u ∈ base, u.names ⊆ names) (ht : t.names ⊆ names)
    (b : Bool) (hb : b = true ↔ (base.getD .empty).Compatible t) :
    (Solver.ask ({} : SingleShot) (t.withBase base)).1 = .ok b := by
  obtain ⟨c, hc⟩ := SingleShot.unfailing {} (t.withBase base)
  have hexact := (SingleShot.truthful hnames none (by simp)).answer {} (t.withBase base) c
    (SingleShot.ofTable_over names none) (Table.withBase_names hbase ht) hc
  rw [Option.getD_none, Table.compatible_withBase, ← hb] at hexact
  rw [hc, Bool.eq_iff_iff.mpr hexact]

theorem SingleShot.new_answers (base : Option Table) (bs : List Bool) (ts : List Table)
    (hnames : Numberable ((base.toList ++ ts).flatMap Table.names))
    (h : List.Forall₂ (fun b t => b = true ↔ (base.getD .empty).Compatible t) bs ts) :
    ts.map (fun t => (Solver.ask ({} : SingleShot) (t.withBase base)).1) = bs.map .ok := by
  have hsub := Table.names_subset_flatMap (base.toList ++ ts)
  have hbase : ∀ u ∈ base, u.names ⊆ (base.toList ++ ts).flatMap Table.names :=
    fun u hu => hsub u (by simp [Option.mem_def.mp hu])
  have hts : ∀ t ∈ ts, t.names ⊆ (base.toList ++ ts).flatMap Table.names :=
    fun t ht => hsub t (List.mem_append_right _ ht)
  clear hsub
  generalize (base.toList ++ ts).flatMap Table.names = names at hnames hbase hts
  induction h with
  | nil => rfl
  | cons hb _ ih =>
    rw [List.forall_mem_cons] at hts
    rw [List.map_cons, List.map_cons, new_answer base _ names hnames hbase hts.1 _ hb, ih hts.2]

/-- A solver that was created with or without a base and a memo never fails. As long as fewer than
2³¹ names occur in the base and the questions, it answers every question as a new solver without
either answers about the base and that question together, whatever was asked before and in whatever
order. -/
theorem created_solver_answers_anew (base : Option Table) (capacity : Option Nat)
    (ts : List Table) :
    ∃ s, SolverKind.dpll.create base capacity = .ok s ∧ ∃ bs : List Bool,
      replies s ts = bs.map .ok ∧
      (Numberable ((base.toList ++ ts).flatMap Table.names) →
        ts.map (fun t => (Solver.ask ({} : SingleShot) (t.withBase base)).1) = bs.map .ok) := by
  obtain ⟨bs, hr, hall⟩ := layered_replies base capacity ts
  exact ⟨_, rfl, bs, hr, fun hnames => SingleShot.new_answers base bs ts hnames (hall hnames)⟩

/-- The first question brings in a name that comes before that of the base in the alphabet, and the
memo answers the last one, which has the same rows in another order. -/
theorem created_solver_answers_anew_reordered :
    ∃ s, SolverKind.dpll.create (some ⟨[[.positive "b"]]⟩) (some 1) = .ok s ∧
      replies s [⟨[[.negative "a"], [.negative "b"]]⟩, ⟨[[.positive "a"]]⟩,
        ⟨[[.negative "b"], [.negative "a"]]⟩] = [.ok false, .ok true, .ok false] := by
  obtain ⟨s, hs, bs, hr, hanew⟩ := created_solver_answers_anew (some ⟨[[.positive "b"]]⟩) (some 1)
    [⟨[[.negative "a"], [.negative "b"]]⟩, ⟨[[.positive "a"]]⟩,
      ⟨[[.negative "b"], [.negative "a"]]⟩]
  refine ⟨s, hs, ?_⟩
  rw [hr, ← hanew (numberable_of_literals _ (by decide))]
  have hclash (t : Table) (ht : [.negative "b"] ∈ t.rows) :
      ¬(Table.mk [[.positive "b"]]).Compatible t := by
    rintro ⟨v, hb, h⟩
    obtain ⟨l, hl, hn⟩ := (Table.holds_iff v t).mp h _ ht
    rw [List.mem_singleton.mp hl] at hn
    simp_all [Table.holds, Literal.holds, Literal.positive, Literal.negative]
  have hfit : (Table.mk [[.positive "b"]]).Compatible ⟨[[.positive "a"]]⟩ :=
    ⟨fun _ => true, rfl, rfl⟩
  exact SingleShot.new_answers _ [false, true, false] _ (numberable_of_literals _ (by decide))
    (.cons (by simpa using hclash _ (by decide)) (.cons (by simpa using hfit)
      (.cons (by simpa using hclash _ (by decide)) .nil)))

end Sentential
