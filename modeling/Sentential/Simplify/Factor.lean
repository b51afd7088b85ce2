import Sentential.Simplify.Laws

/-!
# Common factors

When every operand of a chain is itself a chain of the dual connective, the
operands common to all of them are taken out once:
`(a && b) || (a && c)` is `a && (b || c)`.
-/

set_option autoImplicit false

namespace Sentential.Simplify

open Formula

/-- Operand lists with their common members taken out. -/
structure Shared where
  common : List Formula
  /-- What is left of the first list. -/
  rest : List Formula
  /-- What is left of the other lists. -/
  others : List (List Formula)

/-- Goes through the first list in order; a member with an alike partner in every other list is
common and takes those partners along. -/
def Shared.ofLists : List Formula → List (List Formula) → Shared
  | [], others => ⟨[], [], others⟩
  | candidate :: candidates, others =>
    match others.mapM (Matching.take? (fun t => t.alike candidate)) with
    | some others' =>
      let s := ofLists candidates others'
      ⟨candidate :: s.common, s.rest, s.others⟩
    | none =>
      let s := ofLists candidates others
      ⟨s.common, candidate :: s.rest, s.others⟩

/-- The chain over `common` and what is left of the lists. If one list has nothing left, the
others are absorbed by the common operands. -/
def Shared.join? (op : Connective) (s : Shared) : Option Formula :=
  if s.common = [] then none
  else if [] ∈ s.rest :: s.others then op.dual.join? s.common
  else
    match op.join? ((s.rest :: s.others).filterMap op.dual.join?) with
    | some remainder => op.dual.join? (s.common ++ [remainder])
    | none => none

/-- The chain of `op` over `ts` with common factors taken out. There are none unless at least two
operands are given, each of them a chain of the dual connective, with a common operand. -/
def factor (op : Connective) (ts : List Formula) : Option Formula :=
  match ts with
  | first :: second :: more =>
    if (first :: second :: more).all (fun t => t.connective? == some op.dual) then
      (Shared.ofLists (first.terms op.dual)
        ((second :: more).map (fun t => t.terms op.dual))).join? op
    else none
  | _ => none

theorem totals_mapM_take? (m : Gauge) {p : Formula → Bool} {lists lists' : List (List Formula)}
    (h : lists.mapM (Matching.take? p) = some lists') :
    m.totals lists' + lists.length * m.bin ≤ m.totals lists := by
  induction lists generalizing lists' with
  | nil =>
    simp at h
    subst h
    simp
  | cons l ls ih =>
    simp only [List.mapM_cons, Option.bind_eq_bind, Option.bind_eq_some_iff, Option.pure_def,
      Option.some.injEq] at h
    obtain ⟨l', taken, ls', rest, rfl⟩ := h
    obtain ⟨b, _, _, total⟩ := m.total_take? taken
    have := ih rest
    simp only [Gauge.totals_cons, List.length_cons, Nat.add_mul] at *
    omega

theorem length_mapM_take? {p : Formula → Bool} {lists lists' : List (List Formula)}
    (h : lists.mapM (Matching.take? p) = some lists') : lists'.length = lists.length := by
  induction lists generalizing lists' with
  | nil => simp_all
  | cons l ls ih =>
    simp only [List.mapM_cons, Option.bind_eq_bind, Option.bind_eq_some_iff, Option.pure_def,
      Option.some.injEq] at h
    obtain ⟨l', _, ls', rest, rfl⟩ := h
    simp [ih rest]

namespace Shared

theorem total_ofLists (m : Gauge) (candidates : List Formula) (others : List (List Formula)) :
    m.total (ofLists candidates others).common + m.total (ofLists candidates others).rest =
      m.total candidates := by
  induction candidates generalizing others with
  | nil => simp [ofLists]
  | cons c cs ih =>
    simp only [ofLists]
    split
    · rename_i others' _
      have := ih others'
      simp
      omega
    · have := ih others
      simp
      omega

theorem totals_ofLists (m : Gauge) (candidates : List Formula) (others : List (List Formula)) :
    m.totals (ofLists candidates others).others +
      (ofLists candidates others).common.length * (others.length * m.bin) ≤
        m.totals others := by
  induction candidates generalizing others with
  | nil => simp [ofLists]
  | cons c cs ih =>
    simp only [ofLists]
    split
    · rename_i others' taken
      have := ih others'
      have := totals_mapM_take? m taken
      rw [length_mapM_take? taken] at *
      simp only [List.length_cons, Nat.add_mul, Nat.one_mul]
      omega
    · exact ih others

end Shared

theorem total_filterMap_join? (m : Gauge) (op : Connective) {lists : List (List Formula)}
    (h : [] ∉ lists) : m.total (lists.filterMap op.join?) = m.totals lists := by
  induction lists with
  | nil => simp
  | cons l ls ih =>
    simp only [List.mem_cons, not_or] at h
    obtain ⟨f, joined⟩ : ∃ f, op.join? l = some f := by
      cases l with
      | nil => exact absurd rfl h.1
      | cons t ts => exact ⟨_, rfl⟩
    have := m.size_join? joined
    have := ih h.2
    simp only [List.filterMap_cons_some joined, Gauge.total_cons, Gauge.totals_cons] at *
    omega

theorem Shared.join?_size (m : Gauge) {op : Connective} {s : Shared} {f : Formula}
    (h : s.join? op = some f) :
    s.common ≠ [] ∧ m.size f + m.bin ≤
      m.total s.common + m.total s.rest + m.totals s.others := by
  unfold Shared.join? at h
  split at h
  · cases h
  · rename_i common
    refine ⟨common, ?_⟩
    split at h
    · have := m.size_join? h
      omega
    · rename_i lists
      split at h
      · rename_i remainder joined
        have := m.size_join? h
        have := m.size_join? joined
        have := total_filterMap_join? m op.dual lists
        simp only [Gauge.totals_cons, Gauge.total_append,
          Gauge.total_cons, Gauge.total_nil] at *
        omega
      · cases h

theorem totals_map_terms (m : Gauge) (op : Connective) (ts : List Formula) :
    m.totals (ts.map (fun t => t.terms op)) = m.total ts := by
  induction ts with
  | nil => simp
  | cons t ts ih => simp [m.total_terms, ih]

/-- Taking a factor out makes the chain smaller. -/
theorem factor_size (m : Gauge) {op : Connective} {ts : List Formula} {f : Formula}
    (h : factor op ts = some f) : m.size f + m.bin < m.total ts := by
  unfold factor at h
  split at h
  · rename_i first second more
    split at h
    · obtain ⟨common, size⟩ := Shared.join?_size m h
      have := Shared.total_ofLists m (first.terms op.dual)
        ((second :: more).map (fun t => t.terms op.dual))
      have others := Shared.totals_ofLists m (first.terms op.dual)
        ((second :: more).map (fun t => t.terms op.dual))
      have := totals_map_terms m op.dual (second :: more)
      have := m.total_terms op.dual first
      have := m.bin_pos
      have taken : 0 < (Shared.ofLists (first.terms op.dual)
          ((second :: more).map (fun t => t.terms op.dual))).common.length *
          (((second :: more).map (fun t => t.terms op.dual)).length * m.bin) := by
        refine Nat.mul_pos (List.length_pos_iff.mpr common) (Nat.mul_pos ?_ m.bin_pos)
        simp
      rw [Gauge.total_cons]
      omega
    · cases h
  · cases h

end Sentential.Simplify
