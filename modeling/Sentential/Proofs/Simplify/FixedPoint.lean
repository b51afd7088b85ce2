import Sentential.Digest
import Sentential.Proofs.Simplify.Repeats
import Sentential.Proofs.Simplify.Symmetry

/-!
# Fixed points of masking

A run that is not cut off ends with a pass in which no attempt changed the
formula. A second run may mask with another name, since names can be gone by
then, but both names are new to the formula. Exchanging two such names leaves
the formula as it is and takes one masked formula to the other, and compacting
commutes with that exchange. So the same attempts come to nothing again.
-/

set_option autoImplicit false

namespace Sentential.Simplify.Repeats

open Formula

theorem swap_masked (f : Formula) (targets : List Formula) (a b : String)
    (ha : a ∉ f.occurrences) (hb : b ∉ f.occurrences) :
    (Symmetry.swap a b).apply (f.substitute targets (.var a)) =
      f.substitute targets (.var b) := by
  have hmask : (Symmetry.swap a b).apply (.var a) = .var b :=
    congrArg Formula.var (Equiv.swap_apply_left a b)
  induction f with
  | const value =>
    rw [substitute, substitute]
    split
    · exact hmask
    · exact Symmetry.swap_of_fresh ha hb
  | var name =>
    rw [substitute, substitute]
    split
    · exact hmask
    · exact Symmetry.swap_of_fresh ha hb
  | neg inner ih =>
    rw [substitute, substitute]
    split
    · exact hmask
    · rw [Symmetry.apply_neg, ih ha hb]
  | bin op left right ihl ihr =>
    rw [mem_occurrences_bin, not_or] at ha hb
    rw [substitute, substitute]
    split
    · exact hmask
    · rw [Symmetry.apply_bin, ihl ha.1 hb.1, ihr ha.2 hb.2]
      rfl

theorem attempt_eq_none_iff (mask f : Formula) (group : Group) :
    attempt mask f group = none ↔
      (f.substitute group.members mask).alike
        (Compact.run (f.substitute group.members mask)) = true := by
  simp [attempt]

/-- Whether an attempt comes to nothing does not depend on the new name that it masks with. -/
theorem attempt_none_of_fresh {a b : String} {f : Formula} {group : Group}
    (ha : a ∉ f.occurrences) (hb : b ∉ f.occurrences)
    (h : attempt (.var a) f group = none) : attempt (.var b) f group = none := by
  rw [attempt_eq_none_iff] at h ⊢
  rw [← swap_masked f group.members a b ha hb, Compact.run_apply, Symmetry.alike_apply]
  exact h

theorem attempts_eq_none_iff (mask f : Formula) (groups : List Group) (changed : Option Formula) :
    groups.foldl (fun changed group => (attempt mask (changed.getD f) group).or changed) changed =
        none ↔
      changed = none ∧ ∀ group ∈ groups, attempt mask f group = none := by
  induction groups generalizing changed with
  | nil => simp
  | cons group groups ih =>
    rw [List.foldl_cons, ih, Option.or_eq_none_iff, List.forall_mem_cons]
    constructor
    · rintro ⟨⟨ha, rfl⟩, hr⟩
      exact ⟨rfl, ha, hr⟩
    · rintro ⟨rfl, ha, hr⟩
      exact ⟨⟨ha, rfl⟩, hr⟩

theorem pass_eq_none_iff (leafKey : Formula → UInt64) (mask f : Formula) :
    pass leafKey mask f = none ↔
      ∀ group ∈ repeated leafKey f, attempt mask f group = none := by
  rw [pass, attempts_eq_none_iff]
  simp

/-- Passes that were not cut off end with one that changes nothing. -/
theorem pass_passes (leafKey : Formula → UInt64) (mask : Formula) (total left : Nat) (f : Formula)
    (h : .passLimit total ∉ (passes leafKey mask total left f).notices) :
    pass leafKey mask (passes leafKey mask total left f).value = none := by
  induction left generalizing f with
  | zero => exact absurd (List.mem_singleton.mpr rfl) h
  | succ left ih =>
    rw [passes] at h ⊢
    cases hp : pass leafKey mask f with
    | none => exact hp
    | some g =>
      rw [hp] at h
      exact ih g h

theorem runWith_of_pass_none {leafKey : Formula → UInt64} {f : Formula}
    (h : pass leafKey (mask f) f = none) : runWith leafKey f = pure f := by
  rw [runWith, limit, passes, h]

/-- When the passes are not cut off, masking once more changes nothing, whichever name is free by
then, and whatever the keys of leaves are. -/
theorem masking_stops_at_fixed_point (leafKey : Formula → UInt64) (f : Formula)
    (h : .passLimit limit ∉ (runWith leafKey f).notices) :
    runWith leafKey (runWith leafKey f).value = pure (runWith leafKey f).value := by
  have hlast : pass leafKey (mask f) (runWith leafKey f).value = none :=
    pass_passes leafKey (mask f) limit limit f h
  have hold : maskName f ∉ (runWith leafKey f).value.occurrences :=
    fun hm => maskName_fresh f ((runWith_keeps leafKey f).names _ hm)
  -- the names may differ, but none of them occurs in the result
  have hnew := maskName_fresh (runWith leafKey f).value
  apply runWith_of_pass_none
  rw [pass_eq_none_iff] at hlast ⊢
  intro group hg
  exact attempt_none_of_fresh hold hnew (hlast group hg)

theorem unused_of_not_mem {used : List String} {name : String} (h : name ∉ used) (tries : Nat) :
    unused used tries name = name := by
  cases tries with
  | zero => rfl
  | succ tries => rw [unused, if_neg h]

theorem mask_eq_first (f : Formula) (h : "__TMP_REPLACE__" ∉ f.occurrences) :
    mask f = .var "__TMP_REPLACE__" := by
  rw [← mem_names] at h
  rw [mask, unused_of_not_mem h]

theorem mask_eq_second (f : Formula) (hu : "__TMP_REPLACE__" ∈ f.occurrences)
    (h : "__TMP_REPLACE___" ∉ f.occurrences) : mask f = .var "__TMP_REPLACE___" := by
  rw [← mem_names] at hu h
  obtain ⟨tries, hl⟩ := Nat.exists_eq_succ_of_ne_zero
    (Nat.ne_of_gt (List.length_pos_of_mem hu))
  rw [mask, hl, unused, if_pos hu]
  exact congrArg Formula.var (unused_of_not_mem h tries)

/-- A formula with a repeated part that uses the first choice of a mask where it is absorbed. -/
def usesMask : Formula :=
  .or (.and (.or (.var "a") (.var "b")) (.var "c"))
    (.and (.neg (.or (.var "b") (.var "a")))
      (.or (.var "d") (.and (.var "d") (.var "__TMP_REPLACE__"))))

/-- What is left of it still has the repeated part. -/
def freesMask : Formula :=
  .or (.and (.or (.var "a") (.var "b")) (.var "c"))
    (.and (.neg (.or (.var "a") (.var "b"))) (.var "d"))

theorem masking_stops_at_fixed_point_renamed :
    mask usesMask = .var "__TMP_REPLACE___" ∧ (runWith leafDigest usesMask).value = freesMask ∧
      mask freesMask = .var "__TMP_REPLACE__" ∧
      runWith leafDigest freesMask = pure freesMask := by
  have hm : mask usesMask = .var "__TMP_REPLACE___" :=
    mask_eq_second usesMask (by decide +kernel) (by decide +kernel)
  have hv : (runWith leafDigest usesMask).value = freesMask := by
    rw [runWith, hm]
    decide +kernel
  have hn : .passLimit limit ∉ (runWith leafDigest usesMask).notices := by
    rw [runWith, hm]
    decide +kernel
  have hr := masking_stops_at_fixed_point leafDigest usesMask hn
  rw [hv] at hr
  exact ⟨hm, hv, mask_eq_first freesMask (by decide +kernel), hr⟩

end Sentential.Simplify.Repeats
