import Mathlib.Logic.Basic
import Sentential.Disjunction

/-!
# What a queue allows

A queue allows a valuation that makes one of its formulas true, and every
valuation once true was added. It is vacant while nothing but false was added.
Joining neighbours loses and invents no valuation, so a disjunction is true
exactly where the queue allows it, a vacant queue apart, which gives true.
-/

set_option autoImplicit false

namespace Sentential

theorem or_holds (v : Valuation) (f g : Formula) :
    (Formula.or f g).holds v = true ↔ f.holds v = true ∨ g.holds v = true := by
  simp [Formula.holds, Connective.apply]

theorem orNeighbours_holds (v : Valuation) (fs : List Formula) :
    (∃ f ∈ orNeighbours fs, f.holds v = true) ↔ ∃ f ∈ fs, f.holds v = true := by
  fun_induction orNeighbours fs with
  | case1 a b rest ih => simp only [List.mem_cons, exists_eq_or_imp, or_holds, ih, or_assoc]
  | case2 short => rfl

theorem balancedOr_holds (v : Valuation) (fs : List Formula) (g : Formula)
    (h : balancedOr? fs = some g) : g.holds v = true ↔ ∃ f ∈ fs, f.holds v = true := by
  fun_induction balancedOr? fs with
  | case1 => cases h
  | case2 f =>
    cases h
    simp
  | case3 a b rest ih =>
    rw [ih h]
    exact orNeighbours_holds v (a :: b :: rest)

theorem balancedOr_exists (fs : List Formula) (h : fs ≠ []) : ∃ g, balancedOr? fs = some g := by
  fun_induction balancedOr? fs with
  | case1 => exact absurd rfl h
  | case2 f => exact ⟨f, rfl⟩
  | case3 a b rest ih => exact ih (List.cons_ne_nil _ _)

namespace Queue

def Allows (q : Queue) (v : Valuation) : Prop :=
  q.certain = true ∨ ∃ f ∈ q.pending, f.holds v = true

def Vacant (q : Queue) : Prop :=
  q.certain = false ∧ q.pending = []

theorem empty_allows (v : Valuation) : ¬empty.Allows v := by
  simp [Allows, empty]

theorem empty_vacant : empty.Vacant := ⟨rfl, rfl⟩

/-- All that adding a formula can do. -/
theorem add_cases (q : Queue) (f : Formula) :
    (f = .const true ∧ q.add f = { q with certain := true }) ∨
    (f = .const false ∧ q.add f = q) ∨
    (f.constant? = none ∧ (q.certain = true ∨ f ∈ q.pending) ∧ q.add f = q) ∨
    (f.constant? = none ∧ (q.certain = false ∧ f ∉ q.pending) ∧
      q.add f = { q with pending := q.pending ++ [f] }) := by
  cases hf : f.constant? with
  | some b =>
    cases f with
    | const value => cases value <;> simp [add]
    | var | neg | bin => cases hf
  | none =>
    have ha : q.add f = if q.certain || q.pending.contains f then q
        else { q with pending := q.pending ++ [f] } := by
      cases f with
      | const value => cases hf
      | var | neg | bin => rfl
    by_cases hq : q.certain = true ∨ f ∈ q.pending
    · exact .inr (.inr (.inl ⟨rfl, hq, by rw [ha, if_pos (by simpa using hq)]⟩))
    · have hn : q.certain = false ∧ f ∉ q.pending := by simpa using hq
      exact .inr (.inr (.inr ⟨rfl, hn, by rw [ha, if_neg (by simpa using hq)]⟩))

theorem add_allows (q : Queue) (f : Formula) (v : Valuation) :
    (q.add f).Allows v ↔ q.Allows v ∨ f.holds v = true := by
  rcases q.add_cases f with ⟨rfl, ha⟩ | ⟨rfl, ha⟩ | ⟨_, hq, ha⟩ | ⟨_, _, ha⟩ <;> rw [ha]
  · simp [Allows, Formula.holds]
  · simp [Formula.holds]
  · refine ⟨.inl, ?_⟩
    rintro (h | h)
    · exact h
    · exact hq.imp_right (fun hm => ⟨f, hm, h⟩)
  · simp [Allows, or_and_right, exists_or, or_assoc]

theorem add_vacant (q : Queue) (f : Formula) :
    (q.add f).Vacant ↔ q.Vacant ∧ f = .const false := by
  rcases q.add_cases f with ⟨rfl, ha⟩ | ⟨rfl, ha⟩ | ⟨hf, hq, ha⟩ | ⟨hf, _, ha⟩ <;> rw [ha]
  · simp [Vacant]
  · simp
  · constructor
    · rintro ⟨hc, hp⟩
      simp [hc, hp] at hq
    · rintro ⟨_, rfl⟩
      cases hf
  · constructor
    · rintro ⟨_, hp⟩
      simp at hp
    · rintro ⟨_, rfl⟩
      cases hf

theorem disjunction_holds (q : Queue) (v : Valuation) :
    q.disjunction.1.holds v = true ↔ q.Allows v ∨ q.Vacant := by
  by_cases hc : q.certain = true
  · simp [disjunction, Allows, hc, Formula.holds]
  · by_cases hp : q.pending = []
    · have hv : q.Vacant := ⟨by simpa using hc, hp⟩
      simp [disjunction, hc, hp, balancedOr?, Formula.holds, hv]
    · obtain ⟨g, hg⟩ := balancedOr_exists q.pending hp
      simp [disjunction, Allows, Vacant, hc, hp, hg, balancedOr_holds v q.pending g hg]

/-- The queue holds what counts of the formulas added to it: it allows what one of them allows, and
is vacant while all of them are false. -/
structure Collects (q : Queue) (added : List Formula) : Prop where
  allows : ∀ v, q.Allows v ↔ ∃ f ∈ added, f.holds v = true
  vacant : q.Vacant ↔ ∀ f ∈ added, f = .const false
  pending : ∀ f ∈ q.pending, f.constant? = none ∧ f ∈ added

theorem empty_collects : empty.Collects [] where
  allows v := by simpa using empty_allows v
  vacant := by simpa using empty_vacant
  pending f hf := by cases hf

theorem add_collects (q : Queue) (added : List Formula) (h : q.Collects added) (f : Formula) :
    (q.add f).Collects (added ++ [f]) where
  allows v := by
    rw [add_allows, h.allows]
    simp [or_and_right, exists_or]
  vacant := by
    rw [add_vacant, h.vacant, List.forall_mem_append]
    simp
  pending g hg := by
    have hold (hm : g ∈ q.pending) : g.constant? = none ∧ g ∈ added ++ [f] :=
      ⟨(h.pending g hm).1, List.mem_append_left [f] (h.pending g hm).2⟩
    rcases q.add_cases f with ⟨_, ha⟩ | ⟨_, ha⟩ | ⟨_, _, ha⟩ | ⟨hf, _, ha⟩ <;> rw [ha] at hg
    · exact hold hg
    · exact hold hg
    · exact hold hg
    · rcases List.mem_append.mp hg with hg | hg
      · exact hold hg
      · rw [List.mem_singleton.mp hg]
        exact ⟨hf, by simp⟩

/-- What one addition keeps of a queue and the formulas added to it, any number of additions keeps. -/
theorem addAll_keeps {R : Queue → List Formula → Prop}
    (hadd : ∀ q added, R q added → ∀ f, R (q.add f) (added ++ [f])) (q : Queue)
    (added : List Formula) (h : R q added) (fs : List Formula) : R (q.addAll fs) (added ++ fs) := by
  induction fs generalizing q added with
  | nil =>
    rw [List.append_nil]
    exact h
  | cons f fs ih =>
    rw [List.append_cons]
    exact ih (q.add f) (added ++ [f]) (hadd q added h f)

theorem addAll_collects (q : Queue) (added : List Formula) (h : q.Collects added)
    (fs : List Formula) : (q.addAll fs).Collects (added ++ fs) :=
  addAll_keeps add_collects q added h fs

end Queue

end Sentential
