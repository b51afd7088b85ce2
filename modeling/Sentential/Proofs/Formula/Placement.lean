import Mathlib.Data.List.Infix
import Sentential.Proofs.Formula.Partition

/-!
# The place of a formula among the groups

A formula has a home among some groups if one of them takes it; the home depends
on the keys and the first members of the groups only. Groups are never removed and
never change their key or their first member, so a home is kept while other
formulas are added: keys that were refused stay refused, and the key that was
accepted stays accepted. After its own insertion a formula has a home, the group
that it is in.

Formulas that differ in the order of operands only have the same key and are alike,
so they have the same home, whichever of them came first and however often the
keys of leaves collide.
-/

set_option autoImplicit false

namespace Sentential

open Formula

/-- Equal up to exchanging the two operands of connectives, at any depth. -/
inductive Swapped : Formula → Formula → Prop
  | refl (f : Formula) : Swapped f f
  | neg {f g : Formula} : Swapped f g → Swapped (.neg f) (.neg g)
  | bin (op : Connective) {left right l r : Formula} : Swapped left l → Swapped right r →
      Swapped (.bin op left right) (.bin op l r)
  | swap (op : Connective) {left right l r : Formula} : Swapped left l → Swapped right r →
      Swapped (.bin op left right) (.bin op r l)

theorem Swapped.rearranged {f g : Formula} (h : Swapped f g) : Rearranged f g := by
  induction h with
  | refl f => exact .refl f
  | neg _ ih => exact .neg ih
  | bin op _ _ ihl ihr => exact .bin op ihl ihr
  | swap op _ _ ihl ihr => exact .trans (.bin op ihl ihr) (.comm op _ _)

theorem Swapped.alike {f g : Formula} (h : Swapped f g) : f.alike g = true :=
  (alike_iff_unordered f g).mpr ((unordered_eq_iff f g).mpr h.rearranged)

theorem key_swap (leafKey : Formula → UInt64) (op : Connective) (left right : Formula) :
    (bin op left right).key leafKey = (bin op right left).key leafKey := by
  cases op with
  | and => rw [key, key, UInt64.add_comm]
  | or => rw [key, key, UInt64.add_comm]

theorem key_congr (leafKey : Formula → UInt64) (op : Connective) {left right l r : Formula}
    (hl : left.key leafKey = l.key leafKey) (hr : right.key leafKey = r.key leafKey) :
    (bin op left right).key leafKey = (bin op l r).key leafKey := by
  cases op with
  | and => rw [key, key, hl, hr]
  | or => rw [key, key, hl, hr]

theorem Swapped.key {f g : Formula} (h : Swapped f g) (leafKey : Formula → UInt64) :
    f.key leafKey = g.key leafKey := by
  induction h with
  | refl f => rfl
  | neg _ ih => rw [Formula.key, Formula.key, ih]
  | bin op _ _ ihl ihr => exact key_congr leafKey op ihl ihr
  | swap op _ _ ihl ihr => exact (key_congr leafKey op ihl ihr).trans (key_swap leafKey op _ _)

namespace Groups

open Function

/-- What a search for a place looks at: the keys of the groups and their first members. -/
def heads (groups : List Group) : List (UInt64 × Formula) :=
  groups.map (fun g => (g.key, g.first))

/-- Groups that came from others by adding formulas: the heads are still there, in their order. -/
def Grown (groups later : List Group) : Prop :=
  heads groups <+: heads later

/-- The index of the group that takes `f` under the key `k`, if one of the groups does. -/
def home? (groups : List Group) (f : Formula) (k : UInt64) : Option Nat :=
  match slot? groups f (groups.length + 1) k with
  | some slot => groups.findIdx? (fun g => g.key == slot)
  | none => groups.findIdx? (fun g => g.first.alike f)

theorem accepts_of_head {groups : List Group} {k : UInt64} {head : UInt64 × Formula}
    (h : (heads groups).find? (fun head => head.1 == k) = some head) (f : Formula) :
    accepts groups f k = head.2.alike f := by
  rw [heads, List.find?_map] at h
  obtain ⟨g, hg, rfl⟩ := Option.map_eq_some_iff.mp h
  rw [accepts, show groups.find? (fun g => g.key == k) = some g from hg]

section Growth

variable {groups later : List Group} {f : Formula}

/-- Whether a taken key accepts a formula does not change any more. -/
theorem accepts_grown (h : Grown groups later) {k : UInt64} (hk : k ∈ groups.map Group.key) :
    accepts later f k = accepts groups f k := by
  obtain ⟨g, hg, hgk⟩ := List.mem_map.mp hk
  have hsome : ((heads groups).find? (fun head => head.1 == k)).isSome = true :=
    List.find?_isSome.mpr ⟨(g.key, g.first), List.mem_map_of_mem hg, by simp [hgk]⟩
  obtain ⟨head, hhead⟩ := Option.isSome_iff_exists.mp hsome
  rw [accepts_of_head hhead, accepts_of_head (h.find?_eq_some hhead)]

theorem rejected_grown (h : Grown groups later) {k : UInt64} (hk : accepts groups f k = false) :
    accepts later f k = false := by
  rw [accepts_grown h (key_mem_of_rejected hk), hk]

theorem findIdx?_grown (h : Grown groups later) (p : UInt64 × Formula → Bool) {i : Nat}
    (hi : groups.findIdx? (fun g => p (g.key, g.first)) = some i) :
    later.findIdx? (fun g => p (g.key, g.first)) = some i := by
  have hheads (gs : List Group) :
      gs.findIdx? (fun g => p (g.key, g.first)) = (heads gs).findIdx? p :=
    List.findIdx?_map.symm
  rw [hheads] at hi ⊢
  exact h.findIdx?_eq_some hi

theorem Grown.length_le (h : Grown groups later) : groups.length ≤ later.length := by
  have hl := List.IsPrefix.length_le h
  simpa [heads] using hl

/-- The first accepting key of the sequence is found as soon as there are enough tries. -/
theorem slot?_of_first {tries i : Nat} {k : UInt64} (hi : i < tries)
    (ha : accepts groups f (nextKey^[i] k) = true)
    (hb : ∀ j < i, accepts groups f (nextKey^[j] k) = false) :
    slot? groups f tries k = some (nextKey^[i] k) := by
  rcases slot?_first groups f tries k with ⟨j, _, hs, hj, hbefore⟩ | ⟨_, hall⟩
  · have heq : j = i := by
      rcases Nat.lt_trichotomy j i with hlt | heq | hgt
      · rw [hb j hlt] at hj
        cases hj
      · exact heq
      · rw [hbefore i hgt] at ha
        cases ha
    rw [hs, heq]
  · rw [hall i hi] at ha
    cases ha

/-- When all tries fail, the keys repeat before a free one comes, so that no key of the sequence
will ever do. -/
theorem rejected_forever {k : UInt64} (h : slot? groups f (groups.length + 1) k = none) (i : Nat) :
    accepts groups f (nextKey^[i] k) = false := by
  rcases slot?_first groups f (groups.length + 1) k with ⟨j, _, hs, _⟩ | ⟨_, hall⟩
  · rw [h] at hs
    cases hs
  · have hmany : 2 ^ 62 ≤ groups.length := by
      by_contra hfew
      obtain ⟨j, hj, ha⟩ := exists_accepted (f := f) (Nat.lt_of_not_le hfew) k
      rw [hall j hj] at ha
      cases ha
    have hmod : i % 2 ^ 62 < 2 ^ 62 := Nat.mod_lt i (by decide)
    have hperiod : nextKey^[i % 2 ^ 62] k = nextKey^[i] k := by
      rw [← minimalPeriod_nextKey k, iterate_mod_minimalPeriod_eq]
    rw [← hperiod]
    exact hall _ (by omega)

theorem slot?_of_rejected {k : UInt64} (h : ∀ i, accepts groups f (nextKey^[i] k) = false)
    (tries : Nat) : slot? groups f tries k = none := by
  rcases slot?_first groups f tries k with ⟨i, _, _, ha, _⟩ | ⟨hs, _⟩
  · rw [h i] at ha
    cases ha
  · exact hs

/-- A home stays the same when more formulas are added. -/
theorem home?_grown (h : Grown groups later) {k : UInt64} {i : Nat}
    (hi : home? groups f k = some i) : home? later f k = some i := by
  have hlength := h.length_le
  rw [home?] at hi
  rcases slot?_first groups f (groups.length + 1) k with ⟨n, hn, hs, ha, hbefore⟩ | ⟨hs, _⟩
  · rw [hs] at hi
    -- the slot is taken by the home, so it accepts the formula as before
    obtain ⟨g, hg, hk⟩ : ∃ g ∈ groups, g.key = nextKey^[n] k := by
      obtain ⟨hlt, hp, _⟩ := List.findIdx?_eq_some_iff_getElem.mp hi
      exact ⟨groups[i], List.getElem_mem hlt, by simpa using hp⟩
    have ha' : accepts later f (nextKey^[n] k) = true := by
      rw [accepts_grown h (List.mem_map.mpr ⟨g, hg, hk⟩), ha]
    rw [home?, slot?_of_first (by omega) ha' (fun j hj => rejected_grown h (hbefore j hj))]
    exact findIdx?_grown h (fun head => head.1 == nextKey^[n] k) hi
  · have hall (j : Nat) := rejected_grown h (rejected_forever hs j)
    rw [hs] at hi
    rw [home?, slot?_of_rejected hall]
    exact findIdx?_grown h (fun head => head.2.alike f) hi

end Growth

theorem place_eq (p : Group → Bool) (k : UInt64) (f : Formula) (groups : List Group) :
    place p k f groups =
      match groups.findIdx? p with
      | some i => groups.modify i (fun g => g.push f)
      | none => groups ++ [⟨k, f, []⟩] := by
  induction groups with
  | nil => rfl
  | cons g groups ih =>
    rw [place, List.findIdx?_cons]
    by_cases hg : p g = true
    · rw [if_pos hg, if_pos hg]
      rfl
    · rw [if_neg hg, if_neg hg, ih]
      cases groups.findIdx? p with
      | none => rfl
      | some i => exact (List.modify_succ_cons (fun g => g.push f) g groups i).symm

theorem grown_modify (groups : List Group) (i : Nat) (f : Formula) :
    Grown groups (groups.modify i (fun g => g.push f)) := by
  have hheads : heads (groups.modify i (fun g => g.push f)) = heads groups := by
    apply List.ext_getElem?
    intro j
    rw [heads, heads, List.getElem?_map, List.getElem?_map, List.getElem?_modify]
    cases groups[j]? with
    | none => rfl
    | some g => by_cases hij : i = j <;> simp [hij, Group.push]
  rw [Grown, hheads]

theorem grown_append (groups more : List Group) : Grown groups (groups ++ more) := by
  rw [Grown, heads, heads, List.map_append]
  exact List.prefix_append _ _

/-- A formula with a home joins it. -/
theorem insert_of_home {groups : List Group} {f : Formula} {k : UInt64} {i : Nat}
    (h : home? groups f k = some i) :
    insert groups f k = groups.modify i (fun g => g.push f) := by
  rw [home?] at h
  rw [insert]
  cases hs : slot? groups f (groups.length + 1) k with
  | some slot =>
    rw [hs] at h
    simp only [place_eq, h]
  | none =>
    rw [hs] at h
    simp only [place_eq, h]

/-- A formula without a home opens a group, which is its home from then on. -/
theorem insert_without_home {groups : List Group} {f : Formula} {k : UInt64}
    (h : home? groups f k = none) :
    ∃ k', insert groups f k = groups ++ [⟨k', f, []⟩] ∧
      home? (groups ++ [⟨k', f, []⟩]) f k = some groups.length := by
  have hself : f.alike f = true := (alike_iff_unordered f f).mpr rfl
  rw [home?] at h
  rcases slot?_first groups f (groups.length + 1) k with ⟨n, hn, hs, ha, hbefore⟩ | ⟨hs, _⟩
  · rw [hs] at h
    refine ⟨nextKey^[n] k, ?_, ?_⟩
    · rw [insert, hs]
      simp only [place_eq, h]
    · -- no group has the slot, so the search ends at the new one
      have hfree : groups.find? (fun g => g.key == nextKey^[n] k) = none := by
        rw [List.findIdx?_eq_none_iff] at h
        rw [List.find?_eq_none]
        exact fun g hg => by simp [h g hg]
      have ha' : accepts (groups ++ [⟨nextKey^[n] k, f, []⟩]) f (nextKey^[n] k) = true := by
        rw [accepts, List.find?_append, hfree]
        simp [hself]
      rw [home?, slot?_of_first (by simp; omega) ha'
        (fun j hj => rejected_grown (grown_append groups _) (hbefore j hj))]
      simp [List.findIdx?_append, h]
  · have hall (j : Nat) :=
      rejected_grown (grown_append groups [⟨k, f, []⟩]) (rejected_forever hs j)
    rw [hs] at h
    refine ⟨k, ?_, ?_⟩
    · rw [insert, hs]
      simp only [place_eq, h]
    · rw [home?, slot?_of_rejected hall]
      simp [List.findIdx?_append, h, hself]

/-- Alike formulas under the same key have the same home. -/
theorem home?_congr (groups : List Group) {f g : Formula} (h : f.alike g = true) (k : UInt64) :
    home? groups f k = home? groups g k := by
  have halike (first : Formula) : first.alike f = first.alike g := by
    rw [Bool.eq_iff_iff, alike_iff_unordered, alike_iff_unordered,
      (alike_iff_unordered f g).mp h]
  have haccepts (k : UInt64) : accepts groups f k = accepts groups g k := by
    rw [accepts, accepts]
    cases groups.find? (fun g => g.key == k) with
    | none => rfl
    | some group => exact halike group.first
  have hslot (tries : Nat) (k : UInt64) : slot? groups f tries k = slot? groups g tries k := by
    induction tries generalizing k with
    | zero => rfl
    | succ tries ih => rw [slot?, slot?, haccepts, ih]
  rw [home?, home?, hslot]
  simp only [halike]

/-- Every member of a group has this group as its home. -/
def Settled (leafKey : Formula → UInt64) (groups : List Group) : Prop :=
  ∀ i g, groups[i]? = some g → ∀ f ∈ g.members, home? groups f (f.key leafKey) = some i

theorem insert_settled (leafKey : Formula → UInt64) (groups : List Group)
    (h : Settled leafKey groups) (f : Formula) :
    Settled leafKey (insert groups f (f.key leafKey)) := by
  intro j g hg m hm
  cases hi : home? groups f (f.key leafKey) with
  | some i =>
    rw [insert_of_home hi] at hg ⊢
    apply home?_grown (grown_modify groups i f)
    rw [List.getElem?_modify] at hg
    obtain ⟨old, hold, rfl⟩ := Option.map_eq_some_iff.mp hg
    by_cases hij : i = j
    · subst hij
      rw [if_pos rfl, Group.members, Group.push, ← List.cons_append] at hm
      rcases List.mem_append.mp hm with hm | hm
      · exact h i old hold m hm
      · rw [List.mem_singleton.mp hm, hi]
    · rw [if_neg hij] at hm
      exact h j old hold m hm
  | none =>
    obtain ⟨k', hinsert, hhome⟩ := insert_without_home hi
    rw [hinsert] at hg ⊢
    rcases Nat.lt_or_ge j groups.length with hlt | hge
    · rw [List.getElem?_append_left hlt] at hg
      exact home?_grown (grown_append groups _) (h j g hg m hm)
    · rw [List.getElem?_append_right hge, List.getElem?_singleton] at hg
      split at hg
      · cases hg
        have hj : j = groups.length := by omega
        rw [List.mem_singleton.mp hm, hj]
        exact hhome
      · cases hg

theorem ofFormula_settled (leafKey : Formula → UInt64) (f : Formula) :
    Settled leafKey (ofFormula leafKey f) := by
  have hfold (nodes : List Formula) (groups : List Group) (h : Settled leafKey groups) :
      Settled leafKey
        (nodes.foldl (fun groups g => insert groups g (g.key leafKey)) groups) := by
    induction nodes generalizing groups with
    | nil => exact h
    | cons node nodes ih => exact ih _ (insert_settled leafKey groups h node)
  exact hfold f.innerNodes [] (by simp [Settled])

/-- The home of an inner node is the one group that contains it. -/
theorem mem_iff_home (leafKey : Formula → UInt64) (f node : Formula) (hn : node ∈ f.innerNodes) :
    ∃ i < (ofFormula leafKey f).length,
      home? (ofFormula leafKey f) node (node.key leafKey) = some i ∧
      ∀ j group, ((ofFormula leafKey f).map Group.members)[j]? = some group →
        (node ∈ group ↔ j = i) := by
  have hsettled := ofFormula_settled leafKey f
  obtain ⟨positions, hp⟩ := ofFormula_hold leafKey f
  obtain ⟨_, hgroup, hm⟩ := hp.mem hn
  obtain ⟨g, hg, rfl⟩ := List.mem_map.mp hgroup
  obtain ⟨i, hi, rfl⟩ := List.mem_iff_getElem.mp hg
  have hhome := hsettled i _ (List.getElem?_eq_getElem hi) node hm
  refine ⟨i, hi, hhome, ?_⟩
  intro j group hj
  rw [List.getElem?_map] at hj
  obtain ⟨other, hother, rfl⟩ := Option.map_eq_some_iff.mp hj
  constructor
  · intro hmem
    have hsame := hsettled j other hother node hmem
    rw [hhome] at hsame
    exact (Option.some.inj hsame).symm
  · rintro rfl
    rw [List.getElem?_eq_getElem hi] at hother
    rwa [← Option.some.inj hother]

end Groups

namespace Finder

/-- Whatever the keys of leaves are and whichever formulas were grouped before, two inner nodes that
are equal up to exchanging operands, at any depth, are in the same group. No other group contains
either of them, so this holds of every occurrence of the two. -/
theorem grouping_unites_swapped_nodes (leafKey : Formula → UInt64) (history : List Formula)
    (f a b : Formula) (ha : a ∈ f.innerNodes) (hb : b ∈ f.innerNodes) (h : Swapped a b) :
    ∃ i < ((({} : Finder).findAll leafKey history).2.find leafKey f).1.length,
      ∀ j group, ((({} : Finder).findAll leafKey history).2.find leafKey f).1[j]? = some group →
        (a ∈ group ↔ j = i) ∧ (b ∈ group ↔ j = i) := by
  rw [findAll_new, find_new, List.length_map]
  obtain ⟨i, hi, hhome, hmem⟩ := Groups.mem_iff_home leafKey f a ha
  obtain ⟨i', _, hhome', hmem'⟩ := Groups.mem_iff_home leafKey f b hb
  have hsame : i' = i := by
    rw [← h.key leafKey, ← Groups.home?_congr _ h.alike, hhome] at hhome'
    exact (Option.some.inj hhome').symm
  subst hsame
  exact ⟨i', hi, fun j group hj => ⟨hmem j group hj, hmem' j group hj⟩⟩

/-- A formula with two conjunctions that differ in the order of operands at two depths. -/
def twins : Formula :=
  .or (.and (.and (.var "a") (.neg (.or (.var "b") (.var "c")))) (.or (.var "a") (.var "d")))
    (.and (.neg (.or (.var "c") (.var "b"))) (.var "a"))

/-- All keys are zero, and the first conjunction is neither in the first group nor in the last one
when the second conjunction comes. -/
theorem grouping_unites_swapped_nodes_colliding :
    (({} : Finder).find (fun _ => 0) twins).1.length = 6 ∧
    ∃ i < 6, ∀ j group, (({} : Finder).find (fun _ => 0) twins).1[j]? = some group →
      (.and (.var "a") (.neg (.or (.var "b") (.var "c"))) ∈ group ↔ j = i) ∧
      (.and (.neg (.or (.var "c") (.var "b"))) (.var "a") ∈ group ↔ j = i) := by
  have hlength : (({} : Finder).find (fun _ => 0) twins).1.length = 6 := by decide +kernel
  have hswapped : Swapped (.and (.var "a") (.neg (.or (.var "b") (.var "c"))))
      (.and (.neg (.or (.var "c") (.var "b"))) (.var "a")) :=
    .swap .and (.refl _) (.neg (.swap .or (.refl _) (.refl _)))
  have hunited := grouping_unites_swapped_nodes (fun _ => 0) [] twins _ _ (by decide) (by decide)
    hswapped
  refine ⟨hlength, ?_⟩
  rw [← hlength]
  exact hunited

end Finder

end Sentential
