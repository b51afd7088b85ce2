import Mathlib.Data.List.Perm.Subperm
import Mathlib.Data.UInt
import Mathlib.Dynamics.PeriodicPts.Lemmas
import Mathlib.Tactic.Ring
import Sentential.Proofs.Formula.Groups

/-!
# The search for a slot comes to an end

From any key the sequence of keys to try returns to it after `2 ^ 62` steps and
not before. As long as there are fewer groups than that, the keys tried are all
different, so at most as many of them are taken as there are groups. Then the
limit on the number of tries is never felt: an insertion uses the first key of
the sequence that is free or has an alike group.
-/

set_option autoImplicit false

namespace Sentential.Groups

open Function
open scoped UInt64.CommRing

/-- What `2 ^ n` steps do to a key: they multiply it by the first word and add the second. -/
def leap : Nat → UInt64 × UInt64
  | 0 => (23, 1)
  | n + 1 => ((leap n).1 * (leap n).1, ((leap n).1 + 1) * (leap n).2)

theorem iterate_nextKey (n : Nat) (k : UInt64) :
    nextKey^[2 ^ n] k = k * (leap n).1 + (leap n).2 := by
  induction n generalizing k with
  | zero => rfl
  | succ n ih =>
    rw [pow_succ, mul_two, iterate_add_apply, ih, ih, leap]
    ring

theorem minimalPeriod_nextKey (k : UInt64) : minimalPeriod nextKey k = 2 ^ 62 := by
  have hp : Fact (Nat.Prime 2) := ⟨Nat.prime_two⟩
  have half : leap 61 = (1, 9223372036854775808) := by decide +kernel
  have whole : leap 62 = (1, 0) := by decide +kernel
  -- the period divides a power of two, so it is the whole of it unless half of it will do
  apply minimalPeriod_eq_prime_pow
  · intro h
    have hk : k + 9223372036854775808 = k := by
      rw [IsPeriodicPt, IsFixedPt, iterate_nextKey, half, mul_one] at h
      exact h
    exact absurd (add_eq_left.mp hk) (by decide)
  · rw [IsPeriodicPt, IsFixedPt, iterate_nextKey, whole, mul_one, add_zero]

/-- Fewer steps than the period never lead to the same key twice. -/
theorem iterate_nextKey_inj {k : UInt64} {i j : Nat} (hi : i < 2 ^ 62) (hj : j < 2 ^ 62)
    (h : nextKey^[i] k = nextKey^[j] k) : i = j := by
  rw [← minimalPeriod_nextKey k] at hi hj
  exact iterate_injOn_Iio_minimalPeriod hi hj h

variable {groups : List Group} {f : Formula}

theorem key_mem_of_rejected {k : UInt64} (h : accepts groups f k = false) :
    k ∈ groups.map Group.key := by
  rw [accepts] at h
  split at h
  · rename_i g hg
    have hk : g.key = k := by simpa using List.find?_some hg
    exact List.mem_map.mpr ⟨g, List.mem_of_find?_eq_some hg, hk⟩
  · cases h

/-- The slot is the first accepting key of the sequence; there is none only if all tries fail. -/
theorem slot?_first (groups : List Group) (f : Formula) (tries : Nat) (k : UInt64) :
    (∃ i < tries, slot? groups f tries k = some (nextKey^[i] k) ∧
      accepts groups f (nextKey^[i] k) = true ∧
      ∀ j < i, accepts groups f (nextKey^[j] k) = false) ∨
    slot? groups f tries k = none ∧ ∀ i < tries, accepts groups f (nextKey^[i] k) = false := by
  induction tries generalizing k with
  | zero => exact .inr ⟨rfl, fun i hi => absurd hi (Nat.not_lt_zero i)⟩
  | succ tries ih =>
    rw [slot?]
    by_cases ha : accepts groups f k = true
    · rw [if_pos ha]
      exact .inl ⟨0, Nat.succ_pos tries, rfl, ha, fun j hj => absurd hj (Nat.not_lt_zero j)⟩
    · rw [if_neg ha]
      rw [Bool.not_eq_true] at ha
      rcases ih (nextKey k) with ⟨i, hi, hs, hacc, hbefore⟩ | ⟨hs, hall⟩
      · refine .inl ⟨i + 1, by omega, hs, hacc, ?_⟩
        intro j hj
        cases j with
        | zero => exact ha
        | succ j => exact hbefore j (by omega)
      · refine .inr ⟨hs, ?_⟩
        intro i hi
        cases i with
        | zero => exact ha
        | succ i => exact hall i (by omega)

/-- Among more different keys than there are groups, one is accepted. -/
theorem exists_accepted (h : groups.length < 2 ^ 62) (k : UInt64) :
    ∃ i < groups.length + 1, accepts groups f (nextKey^[i] k) = true := by
  by_contra hnone
  simp only [not_exists, not_and, Bool.not_eq_true] at hnone
  have hdistinct : ((List.range (groups.length + 1)).map (nextKey^[·] k)).Nodup := by
    apply List.Nodup.map_on _ List.nodup_range
    intro i hi j hj he
    rw [List.mem_range] at hi hj
    exact iterate_nextKey_inj (by omega) (by omega) he
  have hsub : (List.range (groups.length + 1)).map (nextKey^[·] k) ⊆ groups.map Group.key := by
    intro key hk
    obtain ⟨i, hi, rfl⟩ := List.mem_map.mp hk
    exact key_mem_of_rejected (hnone i (List.mem_range.mp hi))
  -- different keys, all of them taken, are no more than there are groups
  have hlength := (List.subperm_of_subset hdistinct hsub).length_le
  simp at hlength

/-- The formula goes to the first key of the sequence that is free or belongs to an alike group. -/
def TakesFirstSlot (groups : List Group) (f : Formula) (k : UInt64) : Prop :=
  ∃ i, accepts groups f (nextKey^[i] k) = true ∧
    (∀ j < i, accepts groups f (nextKey^[j] k) = false) ∧
    insert groups f k = place (fun g => g.key == nextKey^[i] k) (nextKey^[i] k) f groups

theorem slot?_exists (h : groups.length < 2 ^ 62) (k : UInt64) :
    ∃ i ≤ groups.length, slot? groups f (groups.length + 1) k = some (nextKey^[i] k) ∧
      accepts groups f (nextKey^[i] k) = true ∧
      ∀ j < i, accepts groups f (nextKey^[j] k) = false := by
  rcases slot?_first groups f (groups.length + 1) k with ⟨i, hi, hfirst⟩ | ⟨_, hall⟩
  · exact ⟨i, Nat.le_of_lt_succ hi, hfirst⟩
  · obtain ⟨i, hi, ha⟩ := exists_accepted h k
    rw [hall i hi] at ha
    cases ha

theorem takesFirstSlot (h : groups.length < 2 ^ 62) (k : UInt64) : TakesFirstSlot groups f k := by
  obtain ⟨i, _, hs, ha, hbefore⟩ := slot?_exists h k
  refine ⟨i, ha, hbefore, ?_⟩
  rw [insert, hs]

theorem length_insert_le (groups : List Group) (f : Formula) (k : UInt64) :
    (insert groups f k).length ≤ groups.length + 1 := by
  rcases insert_cases groups f k with ⟨before, g, after, rfl, _, hi⟩ | ⟨k', hi⟩
  · rw [hi]
    simp
  · rw [hi]
    simp

/-- What comes of a key: the groups with the formula in them, or the key to try next. -/
inductive Trial where
  | stored (groups : List Group)
  | collision (next : UInt64)

def trial (groups : List Group) (f : Formula) (k : UInt64) : Trial :=
  if accepts groups f k then .stored (place (fun g => g.key == k) k f groups)
  else .collision (nextKey k)

/-- The loop from a key on, without a limit on its tries: a number of collisions, and then the
formula is stored. -/
inductive Stores (groups : List Group) (f : Formula) : Nat → UInt64 → List Group → Prop
  | stored {k : UInt64} {result : List Group} : trial groups f k = .stored result →
      Stores groups f 0 k result
  | collision {n : Nat} {k next : UInt64} {result : List Group} :
      trial groups f k = .collision next → Stores groups f n next result →
      Stores groups f (n + 1) k result

/-- The loop collides at every key before the first that accepts the formula, and ends there. -/
theorem stores_first (i : Nat) (k : UInt64) (ha : accepts groups f (nextKey^[i] k) = true)
    (hbefore : ∀ j < i, accepts groups f (nextKey^[j] k) = false) :
    Stores groups f i k
      (place (fun g => g.key == nextKey^[i] k) (nextKey^[i] k) f groups) := by
  induction i generalizing k with
  | zero => exact .stored (if_pos ha)
  | succ i ih =>
    have hk : trial groups f k = .collision (nextKey k) := by
      rw [trial, if_neg (by simpa using hbefore 0 (Nat.succ_pos i))]
    exact .collision hk (ih (nextKey k) ha (fun j hj => hbefore (j + 1) (Nat.succ_lt_succ hj)))

/-- A key decides what the loop does there, so the loop has one run from it at most. -/
theorem Stores.unique {n m : Nat} {k : UInt64} {result result' : List Group}
    (h : Stores groups f n k result) (h' : Stores groups f m k result') :
    m = n ∧ result' = result := by
  induction h generalizing m with
  | stored hs =>
    cases h' with
    | stored hs' =>
      rw [hs] at hs'
      cases hs'
      exact ⟨rfl, rfl⟩
    | collision hc =>
      rw [hs] at hc
      cases hc
  | collision hc _ ih =>
    cases h' with
    | stored hs' =>
      rw [hc] at hs'
      cases hs'
    | collision hc' hn =>
      rw [hc] at hc'
      cases hc'
      exact (ih hn).imp_left (congrArg (· + 1))

/-- The first `2 ^ 62` keys to try are all different, whichever key comes first. So as long as there
are fewer groups than that the loop ends, after no more collisions than there are groups, and what
it ends with is the insertion with its limit on the tries. -/
theorem probing_comes_to_an_end (k : UInt64) :
    (∀ i j, i < j → j < 2 ^ 62 → nextKey^[i] k ≠ nextKey^[j] k) ∧
    ∀ (groups : List Group) (f : Formula), groups.length < 2 ^ 62 →
      ∃ n ≤ groups.length, ∀ m result,
        Stores groups f m k result ↔ m = n ∧ result = insert groups f k := by
  constructor
  · intro i j hij hj h
    exact absurd (iterate_nextKey_inj (hij.trans hj) hj h) hij.ne
  · intro groups f hlength
    obtain ⟨i, hi, hs, ha, hbefore⟩ := slot?_exists hlength k
    have hrun : Stores groups f i k (insert groups f k) := by
      rw [insert, hs]
      exact stores_first i k ha hbefore
    refine ⟨i, hi, fun m result => ⟨hrun.unique, ?_⟩⟩
    rintro ⟨rfl, rfl⟩
    exact hrun

/-- From key 0 the last of these keys is not 0 again, and a formula that collides with the group under
key 0 is stored under key 1. -/
theorem probing_comes_to_an_end_zero :
    nextKey^[0] 0 ≠ nextKey^[2 ^ 62 - 1] 0 ∧
      ∃ n ≤ 1, ∀ m result,
        Stores [⟨0, .neg (.const true), []⟩] (.and (.const true) (.const true)) m 0 result ↔
          m = n ∧ result =
            [⟨0, .neg (.const true), []⟩, ⟨1, .and (.const true) (.const true), []⟩] := by
  obtain ⟨distinct, ends⟩ := probing_comes_to_an_end 0
  refine ⟨distinct 0 (2 ^ 62 - 1) (by decide) (by decide), ?_⟩
  have hinsert : insert [⟨0, .neg (.const true), []⟩] (.and (.const true) (.const true)) 0 =
      [⟨0, .neg (.const true), []⟩, ⟨1, .and (.const true) (.const true), []⟩] := by
    cbv
  rw [← hinsert]
  exact ends [⟨0, .neg (.const true), []⟩] _ (by decide)

end Sentential.Groups
