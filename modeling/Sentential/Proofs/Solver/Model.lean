import Sentential.Proofs.Solver.Search

/-!
# The model that a search returns

A successful search is a sequence of choices, each for a variable that still
occurs in the clauses, until no clause is left. Every clause that was there at
the start therefore has one of the choices, and no variable is chosen twice. The
clauses that loading leaves out are those with both signs of a variable, and
they are the only ones for which nothing is said about the model.
-/

set_option autoImplicit false

namespace Sentential.Search

/-- From the clauses and the choices made so far, further choices lead to a model. -/
inductive Leads : List Clause → Model → Model → Prop
  | solved (made : Model) : Leads [] made made
  | choose {cs : List Clause} {made model : Model} (c : Choice)
      (occurs : ∃ d ∈ cs.flatten, d.index = c.index)
      (rest : Leads (assign c cs) (c :: made) model) : Leads cs made model

theorem search_leads (cs : List Clause) (made model : Model) (h : search cs made = some model) :
    Leads cs made model := by
  fun_induction search cs made with
  | case1 cs made hm =>
    cases h
    rw [nil_of_move_solved cs hm]
    exact .solved _
  | case2 => cases h
  | case3 cs made c hm _ ih => exact .choose c ⟨c, mem_of_move_force hm, rfl⟩ (ih h)
  | case4 cs made c hm _ found hfound ih =>
    cases h
    exact .choose c ⟨c, mem_of_move_branch hm, rfl⟩ (ih hfound)
  -- the second attempt is for the same variable, which still occurs
  | case5 cs made c hm _ _ _ _ ih => exact .choose c.flip ⟨c, mem_of_move_branch hm, rfl⟩ (ih h)

theorem Leads.kept {cs : List Clause} {made model : Model} (h : Leads cs made model) :
    ∀ c ∈ made, c ∈ model := by
  induction h with
  | solved made => exact fun _ hc => hc
  | choose c _ _ ih => exact fun d hd => ih d (List.mem_cons_of_mem c hd)

def Covers (model : Model) (cs : List Clause) : Prop :=
  ∀ cl ∈ cs, ∃ c ∈ cl, c ∈ model

theorem covers_of_assign (model : Model) (c : Choice) (cs : List Clause) (hc : c ∈ model)
    (h : Covers model (assign c cs)) : Covers model cs := by
  intro cl hcl
  -- a clause that the choice removes has the choice, any other is covered by what is left of it
  by_cases hm : c ∈ cl
  · exact ⟨c, hm, hc⟩
  · obtain ⟨d, hd, hdm⟩ := h _ ((mem_assign c _ cs).mpr ⟨cl, hcl, hm, rfl⟩)
    exact ⟨d, (List.mem_filter.mp hd).1, hdm⟩

theorem Leads.covers {cs : List Clause} {made model : Model} (h : Leads cs made model) :
    Covers model cs := by
  induction h with
  | solved made => simp [Covers]
  | choose c _ rest ih => exact covers_of_assign _ c _ (rest.kept c (by simp)) ih

/-- No variable has been chosen twice, and none that has been chosen is left in the clauses. -/
def Settled (made : Model) (cs : List Clause) : Prop :=
  (made.map Choice.index).Nodup ∧ ∀ d ∈ cs.flatten, d.index ∉ made.map Choice.index

theorem Settled.assign {made : Model} {cs : List Clause} (h : Settled made cs) (c : Choice)
    (occurs : ∃ d ∈ cs.flatten, d.index = c.index) : Settled (c :: made) (assign c cs) := by
  constructor
  · obtain ⟨d, hd, hi⟩ := occurs
    rw [List.map_cons, List.nodup_cons]
    exact ⟨hi ▸ h.2 d hd, h.1⟩
  · intro d hd
    obtain ⟨cl, hcl, hd⟩ := List.mem_flatten.mp hd
    have hne := assign_index c d cl cs hcl hd
    obtain ⟨dl, hdl, _, rfl⟩ := (mem_assign c cl cs).mp hcl
    have hold := h.2 d (List.mem_flatten.mpr ⟨dl, hdl, (List.mem_filter.mp hd).1⟩)
    rw [List.map_cons, List.mem_cons]
    exact not_or.mpr ⟨hne, hold⟩

theorem Leads.once {cs : List Clause} {made model : Model} (h : Leads cs made model)
    (hs : Settled made cs) : (model.map Choice.index).Nodup := by
  induction h with
  | solved made => exact hs.1
  | choose c occurs _ ih => exact ih (hs.assign c occurs)

/-- The search is exact for any clauses over signed numbers, and each model that it returns gives a
value to no variable twice and makes a literal true in each clause without opposite signs. -/
theorem search_decides_by_model (clauses : List (List Int)) :
    (satisfiable clauses = true ↔
      ∃ a : Assignment, ∀ ns ∈ clauses, ∃ n ∈ ns, a n.natAbs = decide (0 < n)) ∧
    ∀ model, model? clauses = some model →
      (model.map Choice.index).Nodup ∧
      ∀ ns ∈ clauses, ¬Opposed ns → ∃ n ∈ ns, ⟨n.natAbs, decide (0 < n)⟩ ∈ model := by
  refine ⟨satisfiable_exact clauses, fun model hm => ?_⟩
  have hleads := search_leads _ _ model hm
  refine ⟨hleads.once ⟨List.nodup_nil, by simp⟩, fun ns hns ho => ?_⟩
  cases hc : clause? ns with
  | none => exact absurd (opposed_of_clause? ns hc) ho
  | some cl =>
    obtain ⟨c, hcl, hcm⟩ := hleads.covers cl
      ((mem_clauseSet _ _).mpr (List.mem_filterMap.mpr ⟨ns, hns, hc⟩))
    obtain ⟨n, hn, rfl⟩ := (mem_clause ns cl hc c).mp hcl
    exact ⟨n, hn, hcm⟩

/-- The least number of 32 bits, zero, and a clause with both signs of a variable. -/
theorem search_decides_by_model_extreme :
    ∃ model, model? [[-2147483648], [3, 0], [1, -1]] = some model ∧
      ⟨2147483648, false⟩ ∈ model ∧ (⟨3, true⟩ ∈ model ∨ ⟨0, false⟩ ∈ model) := by
  obtain ⟨hexact, hmodel⟩ := search_decides_by_model [[-2147483648], [3, 0], [1, -1]]
  obtain ⟨model, hm⟩ := Option.isSome_iff_exists.mp (hexact.mpr ⟨fun _ => false, by decide⟩)
  have hcovers := (hmodel model hm).2
  refine ⟨model, hm, ?_, ?_⟩
  · simpa using hcovers [-2147483648] (by simp) (by simp [Opposed])
  · simpa using hcovers [3, 0] (by simp) (by simp [Opposed])

end Sentential.Search
