/-!
# Greedy matching of lists

Each member of one list takes the first unused partner in another. When the
relation is an equivalence the greedy choice never costs a match, because the
partners of a member are interchangeable.
-/

set_option autoImplicit false

namespace Sentential.Matching

variable {α β : Type}

/-- The pool without its first member that satisfies `p`, if there is one. -/
def take? (p : β → Bool) : List β → Option (List β)
  | [] => none
  | b :: rest => if p b then some rest else (take? p rest).map (b :: ·)

/-- What is left of the pool once every member of `as` has taken a partner. -/
def leftover? (r : α → β → Bool) (as : List α) (pool : List β) : Option (List β) :=
  as.foldl (fun left a => left.bind (take? (r a))) (some pool)

/-- Every member of `as` has a partner of its own in `pool`. -/
def embeds (r : α → β → Bool) (as : List α) (pool : List β) : Bool :=
  (leftover? r as pool).isSome

/-- The two lists are partners member by member in some order. -/
def pairsUp (r : α → β → Bool) (as : List α) (pool : List β) : Bool :=
  as.length == pool.length && embeds r as pool

theorem take?_eq_some {p : β → Bool} {pool left : List β} (h : take? p pool = some left) :
    ∃ before b after, pool = before ++ b :: after ∧ left = before ++ after ∧ p b = true ∧
      ∀ c ∈ before, p c = false := by
  induction pool generalizing left with
  | nil => simp [take?] at h
  | cons b rest ih =>
    simp only [take?] at h
    split at h
    · rename_i hb
      exact ⟨[], b, rest, rfl, by simpa using h.symm, hb, by simp⟩
    · rename_i hb
      simp only [Option.map_eq_some_iff] at h
      obtain ⟨left', h', rfl⟩ := h
      obtain ⟨before, c, after, rfl, rfl, hc, hbefore⟩ := ih h'
      refine ⟨b :: before, c, after, rfl, rfl, hc, ?_⟩
      intro d hd
      rcases List.mem_cons.mp hd with rfl | hd
      · simpa using hb
      · exact hbefore d hd

theorem take?_eq_none_iff {p : β → Bool} {pool : List β} :
    take? p pool = none ↔ ∀ b ∈ pool, p b = false := by
  induction pool with
  | nil => simp [take?]
  | cons b rest ih => cases hb : p b <;> simp [take?, hb, ih]

theorem foldl_take?_none (r : α → β → Bool) (as : List α) :
    as.foldl (fun left a => left.bind (take? (r a))) none = none := by
  induction as with
  | nil => rfl
  | cons a as ih => simpa using ih

@[simp] theorem leftover?_nil (r : α → β → Bool) (pool : List β) :
    leftover? r [] pool = some pool := rfl

@[simp] theorem leftover?_cons (r : α → β → Bool) (a : α) (as : List α) (pool : List β) :
    leftover? r (a :: as) pool = (take? (r a) pool).bind (leftover? r as) := by
  simp only [leftover?, List.foldl_cons, Option.bind_some]
  cases take? (r a) pool with
  | none => simpa using foldl_take?_none r as
  | some left => rfl

theorem length_take? {p : β → Bool} {pool left : List β} (h : take? p pool = some left) :
    pool.length = left.length + 1 := by
  obtain ⟨before, b, after, rfl, rfl, _⟩ := take?_eq_some h
  simp
  omega

theorem length_leftover? {r : α → β → Bool} {as : List α} {pool left : List β}
    (h : leftover? r as pool = some left) : pool.length = as.length + left.length := by
  induction as generalizing pool with
  | nil => simp_all
  | cons a as ih =>
    simp only [leftover?_cons, Option.bind_eq_some_iff] at h
    obtain ⟨next, taken, h⟩ := h
    have := ih h
    have := length_take? taken
    simp
    omega

end Sentential.Matching
