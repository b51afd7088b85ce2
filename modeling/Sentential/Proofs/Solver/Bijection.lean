import Mathlib
import Sentential.Proofs.Clause.Sameness
import Sentential.Proofs.Solver.Combination

/-!
# Numbers that stay

The known names are a list without repetition, so the place in the list numbers
them one to one. A question only adds names at the end of the list, which keeps the
numbers that were given before. Which names it adds and in which order depends on
the set of its names alone, because they are sorted first; tables that are the same
therefore extend a numbering in the same way. All this ends with the positive words of
32 bits: the name that comes after them cannot be told from its own negation.
-/

set_option autoImplicit false

namespace Sentential

namespace Table

theorem names_subset_of_same (t u : Table) (h : t.same u = true) (name : String)
    (hn : name ∈ u.names) : name ∈ t.names := by
  obtain ⟨row, hr, l, hl, he⟩ := (u.mem_names name).mp hn
  obtain ⟨other, ho, hp⟩ := same_row t u h row hr
  exact (t.mem_names name).mpr ⟨other, ho, l, hp.mem_iff.mpr hl, he⟩

theorem names_eq_of_same (t u : Table) (h : t.same u = true) : t.names = u.names := by
  apply Sorted.ofList_eq_of_mem_iff compare
  intro name
  have ht := names_subset_of_same t u h name
  have hu := names_subset_of_same u t (same_symm t u h) name
  simp only [names, Names.mem_ofList] at ht hu
  exact ⟨hu, ht⟩

end Table

namespace Numbering

theorem toNat_last (n : Numbering) (hl : n.names.length < 2 ^ 31) :
    n.last.toUInt32.toNat = n.names.length := by
  simp only [last, Int32.toUInt32_ofNat', UInt32.toNat_ofNat']
  omega

theorem number_bijOn (n : Numbering) (hl : n.names.length < 2 ^ 31) (hn : n.names.Nodup) :
    Set.BijOn (fun name => (n.number name).toInt) {name | name ∈ n.names}
      (Set.Icc 1 (n.names.length : Int)) := by
  refine ⟨?_, ?_, ?_⟩
  · intro name hm
    have hi := List.idxOf_lt_length_of_mem hm
    simp only [Set.mem_Icc, n.toInt_number hl name hm]
    omega
  · intro a ha b hb hab
    simp only [n.toInt_number hl a ha, n.toInt_number hl b hb] at hab
    exact (List.idxOf_inj ha).mp (by omega)
  · rintro k ⟨hk, hk'⟩
    have hi : k.toNat - 1 < n.names.length := by omega
    have hm : n.names[k.toNat - 1] ∈ n.names := List.getElem_mem hi
    refine ⟨n.names[k.toNat - 1], hm, ?_⟩
    simp only [n.toInt_number hl _ hm, hn.idxOf_getElem]
    omega

theorem extend_of_same (n : Numbering) (t u : Table) (h : t.same u = true) :
    n.extend u = n.extend t := by
  rw [extend, extend, Table.names_eq_of_same t u h]

theorem names_prefix_extend (n : Numbering) (t : Table) : n.names <+: (n.extend t).names :=
  List.prefix_append _ _

/-- Names that become known later do not change the number of a known name. -/
theorem number_stable (n m : Numbering) (h : n.names <+: m.names) (name : String)
    (hn : name ∈ n.names) : m.number name = n.number name := by
  obtain ⟨rest, hr⟩ := h
  rw [number, number, ← hr, List.idxOf_append_of_mem hn]

theorem signed_bounded (n : Numbering) (hl : n.names.length < 2 ^ 31) (l : Literal)
    (hm : l.name ∈ n.names) :
    n.signed l ≠ 0 ∧ (n.signed l).toInt.natAbs ≤ n.names.length := by
  have hi := List.idxOf_lt_length_of_mem hm
  rw [Ne, ← Int32.toInt_inj, Int32.toInt_zero, n.toInt_signed hl l hm]
  split <;> omega

/-- The number of a literal tells which literal it is exactly as long as fewer than 2³¹ names are
known. The name after those gets the least of all numbers, which is its own negative. -/
theorem signed_injOn_iff (n : Numbering) (hn : n.names.Nodup) :
    Set.InjOn n.signed {l | l.name ∈ n.names} ↔ n.names.length < 2 ^ 31 := by
  constructor
  · intro h
    by_contra hl
    have hi : 2 ^ 31 - 1 < n.names.length := by omega
    obtain ⟨name, hname⟩ : ∃ name, n.names[2 ^ 31 - 1] = name := ⟨_, rfl⟩
    have hm : name ∈ n.names := hname ▸ List.getElem_mem hi
    have hleast : n.number name = Int32.minValue := by
      rw [number, ← hname, hn.idxOf_getElem]
      decide
    have he : n.signed (.negative name) = n.signed (.positive name) := by
      show -n.number name = n.number name
      rw [hleast]
      decide
    cases h hm hm he
  · rintro hl ⟨name, negated⟩ hm ⟨name', negated'⟩ hm' h
    have he := congrArg Int32.toInt h
    rw [n.toInt_signed hl _ hm, n.toInt_signed hl _ hm'] at he
    -- numbers are positive, so the signs agree and then the places do
    have hi : negated = negated' ∧ n.names.idxOf name = n.names.idxOf name' := by
      cases negated <;> cases negated' <;> simp at he ⊢ <;> omega
    have hs : name = name' := (List.idxOf_inj hm).mp hi.2
    rw [hi.1, hs]

end Numbering

namespace SingleShot

/-- The solver that has been asked these questions. -/
def asked (base : Option Table) (earlier : List Table) : SingleShot :=
  Solver.after (ofTable? base) earlier

theorem asked_concat (base : Option Table) (earlier : List Table) (t : Table) :
    asked base (earlier ++ [t]) = ((asked base earlier).pose t).2 :=
  Solver.after_concat (ofTable? base) earlier t

theorem asked_knows (base : Option Table) (earlier : List Table) :
    Knows base earlier (asked base earlier) := by
  induction earlier using List.reverseRecOn with
  | nil => exact ofTable_knows base
  | append_singleton ts t ih =>
    rw [asked_concat]
    exact pose_knows base ts _ t ih

/-- The solver has a base, and the names of `n` are the first that it knows. -/
def Continues (n : Numbering) (s : SingleShot) : Prop :=
  ∃ base, s.base = some base ∧ n.names <+: base.numbering.names

theorem Continues.numbering {n : Numbering} {s : SingleShot} (h : Continues n s) (t : Table) :
    n.names <+: (s.numbering t).names := by
  obtain ⟨base, hb, hp⟩ := h
  simp only [SingleShot.numbering, hb]
  exact hp.trans (base.numbering.names_prefix_extend t)

theorem pose_continues (n : Numbering) (s : SingleShot) (t : Table) (hb : s.base.isSome = true)
    (hp : n.names <+: (s.numbering t).names) : Continues n (s.pose t).2 := by
  obtain ⟨base, hb⟩ := Option.isSome_iff_exists.mp hb
  simp only [SingleShot.numbering, hb] at hp
  refine ⟨{ base with numbering := base.numbering.extend t }, ?_, hp⟩
  simp only [pose, hb]

theorem Continues.pose {n : Numbering} {s : SingleShot} (h : Continues n s) (t : Table) :
    Continues n (s.pose t).2 := by
  have hb : s.base.isSome = true := by
    obtain ⟨base, hb, _⟩ := h
    rw [hb]
    rfl
  exact pose_continues n s t hb (h.numbering t)

theorem Knows.base_isSome {base : Option Table} {earlier : List Table} {s : SingleShot}
    (h : Knows base earlier s) : s.base.isSome = base.isSome := by
  cases base with
  | none => exact congrArg Option.isSome h
  | some b =>
    obtain ⟨n, hb, _⟩ := h
    rw [hb]
    rfl

theorem pose_of_same (s : SingleShot) (t u : Table) (h : t.same u = true) :
    s.numbering u = s.numbering t ∧ (s.pose u).2 = (s.pose t).2 := by
  cases hb : s.base with
  | none => simp only [numbering, pose, hb, Numbering.extend_of_same _ t u h, and_self]
  | some base => simp only [numbering, pose, hb, Numbering.extend_of_same _ t u h, and_self]

/-- The clauses that a question is posed as after earlier ones. -/
def posed (base : Option Table) (earlier : List Table) (t : Table) : Problem :=
  ((asked base earlier).pose t).1

/-- The numbering in force for a question after earlier ones. -/
def inForce (base : Option Table) (earlier : List Table) (t : Table) : Numbering :=
  (asked base earlier).numbering t

/-- With a base, the names that a question finds known or makes known stay in their places. -/
theorem inForce_stable (base : Option Table) (hb : base.isSome = true) (earlier later : List Table)
    (t u : Table) : (inForce base earlier t).names <+:
      (inForce base (earlier ++ t :: later) u).names := by
  have hstart : Continues (inForce base earlier t) ((asked base earlier).pose t).2 := by
    apply pose_continues _ _ _ _ (List.prefix_refl _)
    rw [(asked_knows base earlier).base_isSome, hb]
  have hrun : Continues (inForce base earlier t) (asked base (earlier ++ t :: later)) := by
    rw [asked, Solver.after_append]
    exact Solver.after_invariant (Continues (inForce base earlier t)) (fun _ t h => h.pose t)
      ((asked base earlier).pose t).2 hstart later
  exact hrun.numbering u

/-- Without a base, every question starts a numbering of its own. -/
theorem inForce_none (earlier : List Table) (t : Table) :
    inForce none earlier t = Numbering.extend {} t := by
  have hk := asked_knows none earlier
  simp only [Knows] at hk
  simp only [inForce, numbering, hk]

/-- However many questions a solver has been asked, the clauses of the next one are the rows of the
base, if there is one, and those of the question, with the signed number of its name in the place
of every literal. As long as fewer than 2³¹ names have been seen, the numbering in force pairs them
with the numbers from 1 to the highest. With a base, a name keeps its number in all that follows;
without one, the numbering does not depend on earlier questions. A table that is the same up to
order makes the same names known with the same numbers. -/
theorem numbering_stays_bijective (base : Option Table) (earlier : List Table) (t : Table) :
    (Numberable ((seen base earlier t).flatMap Table.names) →
      Set.BijOn (fun name => ((inForce base earlier t).number name).toInt)
        {name | ∃ u ∈ seen base earlier t, name ∈ u.names}
        (Set.Icc 1 ((posed base earlier t).highest.toNat : Int)) ∧
      ∀ clause ∈ (posed base earlier t).clauses, ∀ i ∈ clause,
        i ≠ 0 ∧ i.toInt.natAbs ≤ (posed base earlier t).highest.toNat) ∧
    (posed base earlier t).clauses = (t.withBase base).rows.map (fun row => row.map (fun l =>
      if l.negated then -(inForce base earlier t).number l.name
      else (inForce base earlier t).number l.name)) ∧
    (base.isSome = true → ∀ later u, ∀ w ∈ seen base earlier t, ∀ name ∈ w.names,
      (inForce base (earlier ++ t :: later) u).number name =
        (inForce base earlier t).number name) ∧
    (base.isNone = true → ∀ others, inForce base others t = inForce base earlier t) ∧
    ∀ u, t.same u = true → inForce base earlier u = inForce base earlier t ∧
      asked base (earlier ++ [u]) = asked base (earlier ++ [t]) := by
  have hk := asked_knows base earlier
  have hmem := mem_numbering hk t
  have hposed : posed base earlier t = ⟨(inForce base earlier t).last.toUInt32,
      (inForce base earlier t).clauses (t.withBase base)⟩ := pose_eq hk t
  refine ⟨fun hnames => ?_, ?_, ?_, ?_, ?_⟩
  · have hd : (inForce base earlier t).names.Nodup := numbering_nodup hk t
    have hl : (inForce base earlier t).names.length < 2 ^ 31 := by
      refine hnames.length_lt hd (fun name hn => ?_)
      exact List.mem_flatMap.mpr ((hmem name).mp hn)
    rw [hposed, Numbering.toNat_last _ hl]
    constructor
    · have hb := (inForce base earlier t).number_bijOn hl hd
      simp only [inForce, hmem] at hb
      exact hb
    · intro clause hc i hi
      obtain ⟨row, hr, rfl⟩ := List.mem_map.mp hc
      obtain ⟨l, hm, rfl⟩ := List.mem_map.mp hi
      exact Numbering.signed_bounded _ hl l
        (withBase_known hk t ((Table.mem_names _ _).mpr ⟨row, hr, l, hm, rfl⟩))
  · rw [hposed]
    rfl
  · intro hb later u w hw name hn
    exact Numbering.number_stable _ _ (inForce_stable base hb earlier later t u) name
      ((hmem name).mpr ⟨w, hw, hn⟩)
  · intro hb others
    rw [Option.isNone_iff_eq_none.mp hb, inForce_none, inForce_none]
  · intro u hs
    rw [asked_concat, asked_concat]
    exact pose_of_same (asked base earlier) t u hs

/-- The question brings in a name that comes before those of the base in the alphabet. Without a
base, an earlier question about another name does not matter. -/
theorem numbering_stays_bijective_inserted :
    (inForce (some ⟨[[.positive "b"]]⟩) [] ⟨[[.positive "a"], [.negative "b"]]⟩).number "a" ≠
      (inForce (some ⟨[[.positive "b"]]⟩) [] ⟨[[.positive "a"], [.negative "b"]]⟩).number "b" ∧
    (Table.mk [[.positive "a"], [.negative "b"]]).same ⟨[[.negative "b"], [.positive "a"]]⟩ = true ∧
    inForce (some ⟨[[.positive "b"]]⟩) [] ⟨[[.negative "b"], [.positive "a"]]⟩ =
      inForce (some ⟨[[.positive "b"]]⟩) [] ⟨[[.positive "a"], [.negative "b"]]⟩ ∧
    (inForce (some ⟨[[.positive "b"]]⟩) [⟨[[.positive "a"], [.negative "b"]]⟩]
        ⟨[[.positive "A"]]⟩).number "b" =
      (inForce (some ⟨[[.positive "b"]]⟩) [] ⟨[[.positive "a"], [.negative "b"]]⟩).number "b" ∧
    inForce none [⟨[[.positive "A"]]⟩] ⟨[[.positive "b"]]⟩ =
      inForce none [] ⟨[[.positive "b"]]⟩ := by
  have hs : (Table.mk [[.positive "a"], [.negative "b"]]).same
      ⟨[[.negative "b"], [.positive "a"]]⟩ = true :=
    (Table.same_iff_rows _ _).mpr ⟨[[.positive "a"], [.negative "b"]], .swap _ _ _,
      .cons (.refl _) (.cons (.refl _) .nil)⟩
  have hb : "b" ∈ (Table.mk [[.positive "b"]]).names :=
    (Table.mem_names _ _).mpr ⟨_, List.mem_singleton_self _, _, List.mem_singleton_self _, rfl⟩
  have ha : "a" ∈ (Table.mk [[.positive "a"], [.negative "b"]]).names :=
    (Table.mem_names _ _).mpr ⟨_, List.mem_cons_self, _, List.mem_singleton_self _, rfl⟩
  have hnames : Numberable ((seen (some ⟨[[.positive "b"]]⟩) []
      ⟨[[.positive "a"], [.negative "b"]]⟩).flatMap Table.names) :=
    numberable_of_literals _ (by decide)
  obtain ⟨hbijective, _, hstable, _, hsame⟩ := numbering_stays_bijective (some ⟨[[.positive "b"]]⟩) []
    ⟨[[.positive "a"], [.negative "b"]]⟩
  obtain ⟨_, _, _, hfresh, _⟩ := numbering_stays_bijective none [] ⟨[[.positive "b"]]⟩
  refine ⟨fun h => ?_, hs, (hsame _ hs).1, hstable rfl [] ⟨[[.positive "A"]]⟩ _ (by simp [seen]) "b" hb,
    hfresh rfl [⟨[[.positive "A"]]⟩]⟩
  have hinjective := (hbijective hnames).1.injOn
  exact absurd (hinjective ⟨_, by simp [seen], ha⟩ ⟨_, by simp [seen], hb⟩
    (congrArg Int32.toInt h)) (by decide)

end SingleShot

end Sentential
