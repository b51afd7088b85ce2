import Mathlib.Logic.Function.Basic
import Sentential.Solver.Search

/-!
# Exactness of the search

A choice leaves a set of clauses that an assignment satisfies exactly if it
satisfies the given clauses and makes the choice. A unit clause leaves no other
choice, and a variable with one sign may be given that sign at no cost, so
neither rule loses the last assignment. The search therefore succeeds on
exactly the satisfiable sets of clauses; nothing is assumed about the range of
the numbers.
-/

set_option autoImplicit false

namespace Sentential.Search

abbrev Assignment := Nat → Bool

def Satisfies (a : Assignment) (cs : List Clause) : Prop :=
  ∀ cl ∈ cs, ∃ c ∈ cl, a c.index = c.value

theorem choice_order_eq (c d : Choice) (h : Choice.order c d = .eq) : c = d := by
  obtain ⟨i, x⟩ := c
  obtain ⟨j, y⟩ := d
  simp only [Choice.order, compareLex, compareOn, Ordering.then_eq_eq] at h
  rw [Std.LawfulEqOrd.eq_of_compare h.1, Std.LawfulEqOrd.eq_of_compare h.2]

instance : Std.LawfulEqCmp Choice.order where
  compare_self := by simp [Choice.order, compareLex, compareOn]
  eq_of_compare := choice_order_eq _ _

theorem mem_clauseSet (cl : Clause) (cs : List Clause) : cl ∈ clauseSet cs ↔ cl ∈ cs :=
  Sorted.mem_ofList (fun _ _ h => Std.LawfulEqCmp.eq_of_compare h)

theorem mem_assign (c : Choice) (cl : Clause) (cs : List Clause) :
    cl ∈ assign c cs ↔ ∃ dl ∈ cs, c ∉ dl ∧ cl = dl.filter (fun d => d.index != c.index) := by
  rw [assign, mem_clauseSet, List.mem_filterMap]
  apply exists_congr
  intro dl
  by_cases hc : c ∈ dl <;> simp [cut, hc, eq_comm]

/-- Under an assignment that makes the choice, the literals that a clause loses are false and
the clauses that disappear are true. -/
theorem satisfies_assign (a : Assignment) (c : Choice) (cs : List Clause)
    (ha : a c.index = c.value) : Satisfies a (assign c cs) ↔ Satisfies a cs := by
  constructor
  · intro h cl hcl
    by_cases hc : c ∈ cl
    · exact ⟨c, hc, ha⟩
    · obtain ⟨d, hd, hv⟩ := h _ ((mem_assign c _ cs).mpr ⟨cl, hcl, hc, rfl⟩)
      exact ⟨d, (List.mem_filter.mp hd).1, hv⟩
  · intro h cl hcl
    obtain ⟨dl, hdl, hc, rfl⟩ := (mem_assign c cl cs).mp hcl
    obtain ⟨d, hd, hv⟩ := h dl hdl
    refine ⟨d, List.mem_filter.mpr ⟨hd, ?_⟩, hv⟩
    have hi : d.index ≠ c.index := by
      intro hi
      have : d = c := by
        obtain ⟨i, x⟩ := d
        obtain ⟨j, y⟩ := c
        simp_all
      exact hc (this ▸ hd)
    simpa using hi

theorem assign_index (c d : Choice) (cl : Clause) (cs : List Clause)
    (hcl : cl ∈ assign c cs) (hd : d ∈ cl) : d.index ≠ c.index := by
  obtain ⟨dl, _, _, rfl⟩ := (mem_assign c cl cs).mp hcl
  simpa using (List.mem_filter.mp hd).2

/-- The clauses left by a choice do not mention its variable, so an assignment of the others can
be completed by the choice. -/
theorem assign_satisfiable (c : Choice) (cs : List Clause) :
    (∃ a, Satisfies a (assign c cs)) ↔ ∃ a : Assignment, a c.index = c.value ∧ Satisfies a cs := by
  constructor
  · rintro ⟨a, ha⟩
    have hc : Function.update a c.index c.value c.index = c.value := Function.update_self ..
    refine ⟨Function.update a c.index c.value, hc, (satisfies_assign _ c cs hc).mp ?_⟩
    intro cl hcl
    obtain ⟨d, hd, hv⟩ := ha cl hcl
    exact ⟨d, hd, by rw [Function.update_of_ne (assign_index c d cl cs hcl hd), hv]⟩
  · rintro ⟨a, hc, ha⟩
    exact ⟨a, (satisfies_assign a c cs hc).mpr ha⟩

theorem unit_clause (cs : List Clause) (c : Choice) (h : unit? cs = some c) : [c] ∈ cs := by
  fun_induction unit? cs with
  | case1 => cases h
  | case2 d rest =>
    cases h
    simp
  | case3 cl cs _ ih => simp [ih h]

theorem unit_forced (cs : List Clause) (c : Choice) (h : unit? cs = some c)
    (a : Assignment) (ha : Satisfies a cs) : a c.index = c.value := by
  obtain ⟨d, hd, hv⟩ := ha [c] (unit_clause cs c h)
  rw [List.mem_singleton.mp hd] at hv
  exact hv

theorem pure_unopposed (cs : List Clause) (c : Choice) (h : pure? cs = some c) :
    c.flip ∉ cs.flatten := by
  have hp := List.find?_some h
  simp only [Bool.not_eq_true', List.contains_eq_mem, decide_eq_false_iff_not] at hp
  intro hm
  exact hp ((Sorted.mem_ofList choice_order_eq).mpr hm)

/-- Giving a variable the only sign it occurs with makes no literal false. -/
theorem pure_harmless (cs : List Clause) (c : Choice) (h : pure? cs = some c)
    (a : Assignment) (ha : Satisfies a cs) :
    Satisfies (Function.update a c.index c.value) cs := by
  intro cl hcl
  obtain ⟨d, hd, hv⟩ := ha cl hcl
  refine ⟨d, hd, ?_⟩
  by_cases hi : d.index = c.index
  · rw [hi, Function.update_self]
    by_contra hne
    have hf : c.flip = d := by
      obtain ⟨i, x⟩ := d
      obtain ⟨j, y⟩ := c
      simp only [Choice.flip, Choice.mk.injEq] at *
      exact ⟨hi.symm, by cases x <;> cases y <;> simp_all⟩
    exact pure_unopposed cs c h (hf ▸ List.mem_flatten.mpr ⟨cl, hcl, hd⟩)
  · rw [Function.update_of_ne hi, hv]

/-- Both forcing rules: if the clauses can be satisfied, then with the forced choice. -/
theorem force_satisfiable (cs : List Clause) (c : Choice) (h : move cs = .force c) :
    (∃ a, Satisfies a (assign c cs)) ↔ ∃ a, Satisfies a cs := by
  rw [assign_satisfiable]
  constructor
  · rintro ⟨a, _, ha⟩
    exact ⟨a, ha⟩
  · rintro ⟨a, ha⟩
    have hfound : (unit? cs).or (pure? cs) = some c := by
      unfold move at h
      repeat' split at h
      all_goals cases h
      assumption
    rcases Option.or_eq_some_iff.mp hfound with hu | ⟨_, hp⟩
    · exact ⟨a, unit_forced cs c hu a ha, ha⟩
    · exact ⟨_, Function.update_self .., pure_harmless cs c hp a ha⟩

/-- Of the two ways to choose for a variable, every assignment makes one. -/
theorem branch_satisfiable (c : Choice) (cs : List Clause) :
    (∃ a, Satisfies a cs) ↔
      (∃ a, Satisfies a (assign c cs)) ∨ ∃ a, Satisfies a (assign c.flip cs) := by
  rw [assign_satisfiable, assign_satisfiable]
  constructor
  · rintro ⟨a, ha⟩
    by_cases hc : a c.index = c.value
    · exact .inl ⟨a, hc, ha⟩
    · refine .inr ⟨a, ?_, ha⟩
      show a c.index = !c.value
      cases hv : c.value <;> simp_all
  · rintro (⟨a, _, ha⟩ | ⟨a, _, ha⟩) <;> exact ⟨a, ha⟩

theorem nil_of_move_solved (cs : List Clause) (h : move cs = .solved) : cs = [] := by
  unfold move at h
  repeat' split at h
  all_goals first
    | exact List.isEmpty_iff.mp (by assumption)
    | cases h

theorem solved_satisfiable (cs : List Clause) (h : move cs = .solved) :
    ∃ a, Satisfies a cs :=
  ⟨fun _ => false, by simp [nil_of_move_solved cs h, Satisfies]⟩

/-- A set of clauses without any choice left holds the empty clause, so the last case of a move
is a conflict like the second one. -/
theorem conflict_unsatisfiable (cs : List Clause) (h : move cs = .conflict) :
    ¬∃ a, Satisfies a cs := by
  have hempty : [] ∈ cs := by
    unfold move at h
    split at h
    · cases h
    · rename_i hne
      split at h
      · rename_i hc
        simpa using hc
      · split at h
        · cases h
        · split at h
          · cases h
          · rename_i hflat
            obtain ⟨cl, rest, rfl⟩ := List.exists_cons_of_ne_nil (by simpa using hne)
            simp only [List.flatten_cons, List.append_eq_nil_iff] at hflat
            simp [hflat.1]
  rintro ⟨a, ha⟩
  obtain ⟨c, hc, _⟩ := ha [] hempty
  cases hc

theorem search_exact (cs : List Clause) (made : Model) :
    (search cs made).isSome = true ↔ ∃ a, Satisfies a cs := by
  fun_induction search cs made with
  | case1 cs made h => simpa using solved_satisfiable cs h
  | case2 cs made h => simpa using conflict_unsatisfiable cs h
  | case3 cs made c h _ ih => rw [ih, force_satisfiable cs c h]
  | case4 cs made c h _ model hm ih =>
    rw [hm] at ih
    rw [branch_satisfiable c cs, ← ih]
    simp
  | case5 cs made c h _ hn _ ih1 ih2 =>
    rw [hn] at ih1
    rw [branch_satisfiable c cs, ← ih1, ← ih2]
    simp

/-- An assignment makes one of the signed numbers true. -/
def Meets (a : Assignment) (numbers : List Int) : Prop :=
  ∃ n ∈ numbers, a n.natAbs = decide (0 < n)

theorem meets_iff (a : Assignment) (numbers : List Int) :
    Meets a numbers ↔ ∃ c ∈ numbers.map Choice.ofInt, a c.index = c.value := by
  simp [Meets, Choice.ofInt]

theorem mem_clause (numbers : List Int) (cl : Clause) (h : clause? numbers = some cl)
    (c : Choice) : c ∈ cl ↔ ∃ n ∈ numbers, Choice.ofInt n = c := by
  unfold clause? at h
  dsimp only at h
  split at h
  · cases h
  · cases h
    rw [Sorted.mem_ofList choice_order_eq, List.mem_map]

theorem clause_meets (a : Assignment) (numbers : List Int) (cl : Clause)
    (h : clause? numbers = some cl) :
    Meets a numbers ↔ ∃ c ∈ cl, a c.index = c.value := by
  simp only [meets_iff, mem_clause numbers cl h, List.mem_map]

/-- The clause has both signs of a variable. Zero has no positive sign. -/
def Opposed (numbers : List Int) : Prop :=
  ∃ n ∈ numbers, ∃ m ∈ numbers, n.natAbs = m.natAbs ∧ 0 < n ∧ m ≤ 0

theorem opposed_of_clause? (numbers : List Int) (h : clause? numbers = none) :
    Opposed numbers := by
  unfold clause? at h
  dsimp only at h
  split at h
  · rename_i hany
    obtain ⟨c, hc, hf⟩ := List.any_eq_true.mp hany
    obtain ⟨n, hn, rfl⟩ := List.mem_map.mp hc
    obtain ⟨m, hm, he⟩ := List.mem_map.mp (List.contains_iff_mem.mp hf)
    obtain ⟨hi, hv⟩ := Choice.mk.inj he
    by_cases hp : 0 < n
    · exact ⟨n, hn, m, hm, hi.symm, hp, by simpa [Choice.ofInt, hp] using hv⟩
    · exact ⟨m, hm, n, hn, hi, by simpa [Choice.ofInt, hp] using hv, Int.not_lt.mp hp⟩
  · cases h

theorem opposed_meets (a : Assignment) (numbers : List Int) (h : Opposed numbers) :
    Meets a numbers := by
  obtain ⟨n, hn, m, hm, hi, hp, hneg⟩ := h
  cases hv : a n.natAbs with
  | true => exact ⟨n, hn, by simp [hv, hp]⟩
  | false => exact ⟨m, hm, by simp [← hi, hv, hneg]⟩

theorem loaded_satisfies (a : Assignment) (clauses : List (List Int)) :
    Satisfies a (clauseSet (clauses.filterMap clause?)) ↔ ∀ ns ∈ clauses, Meets a ns := by
  constructor
  · intro h ns hns
    cases hc : clause? ns with
    | none => exact opposed_meets a ns (opposed_of_clause? ns hc)
    | some cl =>
      apply (clause_meets a ns cl hc).mpr
      exact h cl ((mem_clauseSet _ _).mpr (List.mem_filterMap.mpr ⟨ns, hns, hc⟩))
  · intro h cl hcl
    obtain ⟨ns, hns, hc⟩ := List.mem_filterMap.mp ((mem_clauseSet _ _).mp hcl)
    exact (clause_meets a ns cl hc).mp (h ns hns)

/-- Leaving out tautologies and repetitions does not change what satisfies a set of clauses, so
the search decides the clauses that were given. -/
theorem satisfiable_exact (clauses : List (List Int)) :
    satisfiable clauses = true ↔ ∃ a, ∀ ns ∈ clauses, Meets a ns := by
  rw [satisfiable, model?, search_exact]
  exact exists_congr (fun a => loaded_satisfies a clauses)

end Sentential.Search
