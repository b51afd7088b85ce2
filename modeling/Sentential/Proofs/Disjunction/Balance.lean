import Mathlib.Data.Nat.Log
import Sentential.Proofs.Disjunction.Models

/-!
# Balance of a plain disjunction

Joining neighbours halves a level of the tree, rounding up, and puts one more
connective above each operand. The number of levels is therefore the logarithm of
the number of operands, also when a last operand is carried on without a neighbour.
An operand may be a disjunction itself; what counts is the connectives that were
introduced, so the shape is a relation between a formula and its operands and is not
read off the formula.

A queue keeps the distinct formulas in the order of their first addition. Once true was
added it keeps no further ones, and the result does not depend on them.
-/

set_option autoImplicit false

namespace Sentential

/-- The formula joins the operands from left to right by `or`, and no operand is under more than
`depth` of the connectives that join them. -/
inductive Joins : Nat → List Formula → Formula → Prop
  | operand (depth : Nat) (f : Formula) : Joins depth [f] f
  | or {depth : Nat} {fs gs : List Formula} {f g : Formula} (left : Joins depth fs f)
      (right : Joins depth gs g) : Joins (depth + 1) (fs ++ gs) (.or f g)

theorem Joins.deeper {depth : Nat} {ops : List Formula} {f : Formula} (h : Joins depth ops f) :
    Joins (depth + 1) ops f := by
  induction h with
  | operand depth f => exact .operand (depth + 1) f
  | or _ _ ihl ihr => exact .or ihl ihr

/-- The formulas of a level join consecutive segments of the operands. -/
inductive Level (depth : Nat) : List Formula → List Formula → Prop
  | nil : Level depth [] []
  | cons {segment ops : List Formula} {f : Formula} {fs : List Formula}
      (first : Joins depth segment f) (rest : Level depth ops fs) :
      Level depth (segment ++ ops) (f :: fs)

theorem level_operands (ops : List Formula) : Level 0 ops ops := by
  induction ops with
  | nil => exact .nil
  | cons f ops ih => exact .cons (.operand 0 f) ih

theorem Level.deeper {depth : Nat} {ops fs : List Formula} (h : Level depth ops fs) :
    Level (depth + 1) ops fs := by
  induction h with
  | nil => exact .nil
  | cons first _ ih => exact .cons first.deeper ih

/-- Joining neighbours goes one level up with the same operands. -/
theorem Level.orNeighbours {depth : Nat} {ops fs : List Formula} (h : Level depth ops fs) :
    Level (depth + 1) ops (orNeighbours fs) := by
  fun_induction Sentential.orNeighbours fs generalizing ops with
  | case1 a b rest ih =>
    cases h with
    | cons first others =>
      cases others with
      | cons second rest =>
        rw [← List.append_assoc]
        exact .cons (.or first second) (ih rest)
  | case2 short => exact h.deeper

theorem length_orNeighbours (fs : List Formula) :
    (orNeighbours fs).length = (fs.length + 1) / 2 := by
  fun_induction orNeighbours fs with
  | case1 a b rest ih =>
    rw [List.length_cons, List.length_cons, List.length_cons, ih]
    omega
  | case2 short h =>
    have hshort : short.length ≤ 1 := by
      rcases short with _ | ⟨a, _ | ⟨b, rest⟩⟩
      · exact Nat.zero_le 1
      · exact Nat.le_refl 1
      · exact absurd rfl (h a b rest)
    omega

/-- The number of levels above a level is the logarithm of its length. -/
theorem Level.balancedOr {depth : Nat} {ops fs : List Formula} (h : Level depth ops fs)
    {g : Formula} (hg : balancedOr? fs = some g) : Joins (depth + Nat.clog 2 fs.length) ops g := by
  fun_induction balancedOr? fs generalizing depth with
  | case1 => cases hg
  | case2 f =>
    cases hg
    cases h with
    | cons first rest =>
      cases rest
      rw [List.append_nil]
      exact first
  | case3 a b rest ih =>
    -- the level above has half the length, rounded up, so its logarithm is one less
    have hjoined := ih h.orNeighbours hg
    have hlength : (Formula.or a b :: Sentential.orNeighbours rest).length =
        ((a :: b :: rest).length + 2 - 1) / 2 := length_orNeighbours (a :: b :: rest)
    rw [hlength, Nat.add_right_comm] at hjoined
    rw [Nat.clog_of_two_le (Nat.lt_succ_self 1) (by simp)]
    exact hjoined

/-- The formulas that are not constant, each one where it stands first. -/
def distinctTerms (fs : List Formula) : List Formula :=
  (fs.filter (fun f => f.constant?.isNone)).eraseDups

theorem mem_distinctTerms (fs : List Formula) (f : Formula) :
    f ∈ distinctTerms fs ↔ f ∈ fs ∧ f.constant? = none := by
  simp [distinctTerms]

theorem distinctTerms_append_constant (fs : List Formula) (value : Bool) :
    distinctTerms (fs ++ [.const value]) = distinctTerms fs := by
  simp [distinctTerms, Formula.constant?]

theorem distinctTerms_append_old (fs : List Formula) (f : Formula) (h : f ∈ distinctTerms fs) :
    distinctTerms (fs ++ [f]) = distinctTerms fs := by
  obtain ⟨hm, hc⟩ := (mem_distinctTerms fs f).mp h
  simp [distinctTerms, List.eraseDups_append, hc, hm, List.removeAll]

theorem distinctTerms_append_new (fs : List Formula) (f : Formula) (hc : f.constant? = none)
    (hn : f ∉ distinctTerms fs) : distinctTerms (fs ++ [f]) = distinctTerms fs ++ [f] := by
  have hm : f ∉ fs := fun hm => hn ((mem_distinctTerms fs f).mpr ⟨hm, hc⟩)
  simp [distinctTerms, List.eraseDups_append, hc, hm, List.removeAll, List.eraseDups_cons]

namespace Queue

/-- The queue knows whether true was added, and up to then keeps the distinct formulas in the order
of their first addition. -/
structure Lists (q : Queue) (added : List Formula) : Prop where
  certain : q.certain = true ↔ .const true ∈ added
  pending : q.certain = false → q.pending = distinctTerms added

theorem empty_lists : empty.Lists [] where
  certain := by decide
  pending _ := rfl

theorem add_lists (q : Queue) (added : List Formula) (h : q.Lists added) (f : Formula) :
    (q.add f).Lists (added ++ [f]) := by
  have hcertain (hf : f ≠ .const true) : q.certain = true ↔ .const true ∈ added ++ [f] := by
    rw [h.certain, List.mem_append, List.mem_singleton, or_iff_left hf.symm]
  have hother (hf : f.constant? = none) : f ≠ .const true := by
    rintro rfl
    cases hf
  rcases q.add_cases f with ⟨rfl, ha⟩ | ⟨rfl, ha⟩ | ⟨hf, hq, ha⟩ | ⟨hf, hq, ha⟩ <;> rw [ha]
  · exact ⟨by simp, nofun⟩
  · refine ⟨hcertain (by decide), fun hc => ?_⟩
    rw [distinctTerms_append_constant]
    exact h.pending hc
  · refine ⟨hcertain (hother hf), fun hc => ?_⟩
    have hm : f ∈ distinctTerms added := by
      rw [← h.pending hc]
      exact hq.resolve_left (by simp [hc])
    rw [distinctTerms_append_old added f hm]
    exact h.pending hc
  · refine ⟨hcertain (hother hf), fun hc => ?_⟩
    have hp := h.pending hc
    rw [distinctTerms_append_new added f hf (hp ▸ hq.2), ← hp]

/-- The disjunction is true whatever the terms are, or there are none. -/
def Moot (added : List Formula) : Prop :=
  .const true ∈ added ∨ ∀ f ∈ added, f = .const false

instance : DecidablePred Moot :=
  fun added => inferInstanceAs (Decidable (.const true ∈ added ∨ ∀ f ∈ added, f = .const false))

theorem distinctTerms_eq_nil (added : List Formula) (h : ∀ f ∈ added, f = .const false) :
    distinctTerms added = [] := by
  apply List.eq_nil_iff_forall_not_mem.mpr
  intro f hf
  obtain ⟨hm, hc⟩ := (mem_distinctTerms added f).mp hf
  rw [h f hm] at hc
  cases hc

theorem distinctTerms_ne_nil (added : List Formula) (h : ¬Moot added) :
    distinctTerms added ≠ [] := by
  simp only [Moot, not_or, not_forall] at h
  obtain ⟨htrue, f, hm, hf⟩ := h
  have hc : f.constant? = none := by
    match f with
    | .const true => exact absurd hm htrue
    | .const false => exact absurd rfl hf
    | .var _ | .neg _ | .bin _ _ _ => rfl
  exact List.ne_nil_of_mem ((mem_distinctTerms added f).mpr ⟨hm, hc⟩)

theorem Lists.disjunction_moot {q : Queue} {added : List Formula} (h : q.Lists added)
    (hm : Moot added) : q.disjunction.1 = .const true := by
  by_cases hc : q.certain = true
  · simp [disjunction, hc]
  · have hfalse := hm.resolve_left (fun ht => hc (h.certain.mpr ht))
    have hp := h.pending (by simpa using hc)
    rw [distinctTerms_eq_nil added hfalse] at hp
    simp [disjunction, hp, balancedOr?]

theorem disjunction_joins (q : Queue) (hc : q.certain = false) (hp : q.pending ≠ []) :
    Joins (Nat.clog 2 q.pending.length) q.pending q.disjunction.1 := by
  obtain ⟨g, hg⟩ := balancedOr_exists q.pending hp
  have hjoins := (level_operands q.pending).balancedOr hg
  have hresult : q.disjunction.1 = g := by
    simp [disjunction, hc, hg]
  rw [hresult]
  rw [Nat.zero_add] at hjoins
  exact hjoins

theorem Lists.uncertain {q : Queue} {added : List Formula} (h : q.Lists added)
    (hm : ¬Moot added) : q.certain = false := by
  rw [Bool.eq_false_iff]
  exact fun hc => hm (.inl (h.certain.mp hc))

theorem Lists.disjunction_joins {q : Queue} {added : List Formula} (h : q.Lists added)
    (hm : ¬Moot added) : Joins (Nat.clog 2 (distinctTerms added).length) (distinctTerms added)
      q.disjunction.1 := by
  have hc := h.uncertain hm
  rw [← h.pending hc]
  apply q.disjunction_joins hc
  rw [h.pending hc]
  exact distinctTerms_ne_nil added hm

section History

open SimplifyingQueue

/-- A plain queue has no notices, and so no use for their subject. -/
def step (q : Queue) : Action → Queue
  | .add f => q.add f
  | .addAll fs => q.addAll fs
  | .reset => .empty
  | .disjunction _ => q.disjunction.2

/-- The queue after a history of actions. -/
def after (q : Queue) : List Action → Queue
  | [] => q
  | a :: history => (q.step a).after history

theorem after_append (q : Queue) (history later : List Action) :
    q.after (history ++ later) = (q.after history).after later := by
  induction history generalizing q with
  | nil => rfl
  | cons a history ih => exact ih (q.step a)

theorem step_lists (q : Queue) (added : List Formula) (h : q.Lists added) (a : Action) :
    (q.step a).Lists (a.collected added) := by
  cases a with
  | add f => exact add_lists q added h f
  | addAll fs => exact addAll_keeps add_lists q added h fs
  | reset => exact empty_lists
  | disjunction => exact empty_lists

theorem after_lists (q : Queue) (added : List Formula) (h : q.Lists added) (history : List Action) :
    (q.after history).Lists (collected added history) := by
  induction history generalizing q added with
  | nil => exact h
  | cons a history ih => exact ih (q.step a) (a.collected added) (step_lists q added h a)

/-- Whatever was done before, the disjunction of a plain queue is true if true was added since the
last reset or disjunction, or nothing but false. Otherwise it joins the distinct terms added since
then, in the order of their first addition, each of them under no more connectives than the
logarithm of their number. The queue is empty afterwards and goes on like a new one. -/
theorem plain_disjunction_is_balanced (history : List Action) :
    (Moot (collected [] history) → (empty.after history).disjunction.1 = .const true) ∧
    (¬Moot (collected [] history) →
      Joins (Nat.clog 2 (distinctTerms (collected [] history)).length)
        (distinctTerms (collected [] history)) (empty.after history).disjunction.1) ∧
    (empty.after history).disjunction.2 = .empty ∧
    ∀ subject later,
      empty.after (history ++ .disjunction subject :: later) = empty.after later := by
  have hlists := after_lists empty [] empty_lists history
  refine ⟨hlists.disjunction_moot, hlists.disjunction_joins, rfl, fun subject later => ?_⟩
  rw [after_append]
  rfl

/-- An earlier disjunction and the true added before a reset leave nothing behind. Of five terms three
are distinct; the first is a disjunction and stays whole, and the last has no neighbour. -/
theorem plain_disjunction_is_balanced_nested :
    Joins 2 [.or (.var "a") (.var "b"), .var "a", .var "c"]
      (empty.after [.add (.var "d"), .disjunction none, .add (.const true), .reset,
        .addAll [.or (.var "a") (.var "b"), .const false], .add (.var "a"),
        .addAll [.or (.var "a") (.var "b"), .var "c", .var "a"]]).disjunction.1 ∧
    (empty.after [.add (.var "a"), .disjunction none, .add (.const false)]).disjunction.1 =
      .const true := by
  constructor
  · have hjoins := (plain_disjunction_is_balanced [.add (.var "d"), .disjunction none,
      .add (.const true), .reset, .addAll [.or (.var "a") (.var "b"), .const false],
      .add (.var "a"), .addAll [.or (.var "a") (.var "b"), .var "c", .var "a"]]).2.1 (by decide)
    have hlog : Nat.clog 2 3 = 2 := by decide
    have hterms : distinctTerms [.or (.var "a") (.var "b"), .const false, .var "a",
        .or (.var "a") (.var "b"), .var "c", .var "a"] =
        [.or (.var "a") (.var "b"), .var "a", .var "c"] := by decide
    simp only [collected, Action.collected, List.nil_append, List.cons_append, hterms,
      List.length_cons, List.length_nil, hlog] at hjoins
    exact hjoins
  · exact (plain_disjunction_is_balanced [.add (.var "a"), .disjunction none,
      .add (.const false)]).1 (by decide)

end History

end Queue

end Sentential
