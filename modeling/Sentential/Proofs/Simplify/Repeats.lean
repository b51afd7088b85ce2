import Mathlib.Logic.Function.Basic
import Sentential.Proofs.Formula.Groups
import Sentential.Proofs.Simplify.Compact
import Sentential.Simplify.Repeats

/-!
# Soundness of masking repeated parts

The masked formula means the same as the formula where the mask has the truth
value of the masked part, and putting the part back makes that so. This needs a
mask that the formula does not mention. The mask is chosen once for all passes,
so it is part of what a pass keeps that no new name appears: the part is put
back only into formulas that mentioned the names of it before.
-/

set_option autoImplicit false

namespace Sentential

namespace Formula

theorem holds_unmasked (f part : Formula) (name : String) (v : Valuation) :
    (f.substitute [.var name] part).holds v =
      f.holds (Function.update v name (part.holds v)) := by
  induction f with
  | const => rfl
  | var other =>
    by_cases hn : other = name
    · rw [hn, substitute, if_pos (by simp), holds, Function.update_self]
    · rw [substitute, if_neg (by simp [hn]), holds, holds, Function.update_of_ne hn]
  | neg inner ih =>
    rw [substitute, if_neg (by simp), holds, holds, ih]
  | bin op left right ihl ihr =>
    rw [substitute, if_neg (by simp), holds, holds, ihl, ihr]

theorem mem_unmasked (f part : Formula) (name other : String)
    (h : other ∈ (f.substitute [.var name] part).occurrences) :
    (other ∈ f.occurrences ∧ other ≠ name) ∨
      (name ∈ f.occurrences ∧ other ∈ part.occurrences) := by
  induction f with
  | const => cases h
  | var n =>
    by_cases hn : n = name
    · rw [hn, substitute, if_pos (by simp)] at h
      exact .inr ⟨by simp [hn], h⟩
    · rw [substitute, if_neg (by simp [hn]), occurrences_var, List.mem_singleton] at h
      subst h
      exact .inl ⟨by simp, hn⟩
  | neg inner ih =>
    rw [substitute, if_neg (by simp)] at h
    exact ih h
  | bin op left right ihl ihr =>
    rw [substitute, if_neg (by simp), mem_occurrences_bin] at h
    simp only [mem_occurrences_bin]
    rcases h with h | h
    · rcases ihl h with ⟨ho, hn⟩ | ⟨hn, ho⟩
      · exact .inl ⟨.inl ho, hn⟩
      · exact .inr ⟨.inl hn, ho⟩
    · rcases ihr h with ⟨ho, hn⟩ | ⟨hn, ho⟩
      · exact .inl ⟨.inr ho, hn⟩
      · exact .inr ⟨.inr hn, ho⟩

theorem holds_masked (f : Formula) (targets : List Formula) (name : String)
    (hn : name ∉ f.occurrences) (v : Valuation) (b : Bool)
    (ht : ∀ t ∈ targets, t.holds v = b) :
    (f.substitute targets (.var name)).holds (Function.update v name b) = f.holds v := by
  have hmask (g : Formula) (hg : g ∈ targets) :
      (var name).holds (Function.update v name b) = g.holds v := by
    rw [holds, Function.update_self, ht g hg]
  induction f with
  | const value =>
    rw [substitute]
    split
    · exact hmask _ ‹_›
    · rfl
  | var other =>
    rw [substitute]
    split
    · exact hmask _ ‹_›
    · exact Function.update_of_ne (by simpa [eq_comm] using hn) ..
  | neg inner ih =>
    rw [substitute]
    split
    · exact hmask _ ‹_›
    · rw [holds, holds, ih hn]
  | bin op left right ihl ihr =>
    rw [mem_occurrences_bin, not_or] at hn
    rw [substitute]
    split
    · exact hmask _ ‹_›
    · rw [holds, holds, ihl hn.1, ihr hn.2]

/-- A name in a masked formula was there before or is the mask, and the mask is there only if the
formula has one of the targets as a part. -/
theorem mem_masked (f : Formula) (targets : List Formula) (name other : String)
    (h : other ∈ (f.substitute targets (.var name)).occurrences) :
    other ∈ f.occurrences ∨
      (other = name ∧ ∃ t ∈ targets, ∀ n ∈ t.occurrences, n ∈ f.occurrences) := by
  have hmask (g : Formula) (hg : g ∈ targets) (hm : other ∈ (var name).occurrences) :
      other ∈ g.occurrences ∨
        (other = name ∧ ∃ t ∈ targets, ∀ n ∈ t.occurrences, n ∈ g.occurrences) :=
    .inr ⟨by simpa using hm, g, hg, fun _ hn => hn⟩
  induction f with
  | const value =>
    rw [substitute] at h
    split at h
    · exact hmask _ ‹_› h
    · cases h
  | var n =>
    rw [substitute] at h
    split at h
    · exact hmask _ ‹_› h
    · exact .inl h
  | neg inner ih =>
    rw [substitute] at h
    split at h
    · exact hmask _ ‹_› h
    · exact ih h
  | bin op left right ihl ihr =>
    rw [substitute] at h
    split at h
    · exact hmask _ ‹_› h
    · simp only [mem_occurrences_bin] at h ⊢
      rcases h with h | h
      · rcases ihl h with ho | ⟨ho, t, ht, hsub⟩
        · exact .inl (.inl ho)
        · exact .inr ⟨ho, t, ht, fun n hn => .inl (hsub n hn)⟩
      · rcases ihr h with ho | ⟨ho, t, ht, hsub⟩
        · exact .inl (.inr ho)
        · exact .inr ⟨ho, t, ht, fun n hn => .inr (hsub n hn)⟩

end Formula

namespace Simplify.Repeats

open Formula

theorem countP_lt_of_mem {α : Type} (p q : α → Bool) (l : List α) (a : α) (ha : a ∈ l)
    (hp : p a = false) (hq : q a = true) (h : ∀ b, p b = true → q b = true) :
    l.countP p < l.countP q := by
  obtain ⟨before, after, rfl⟩ := List.append_of_mem ha
  have hb : before.countP p ≤ before.countP q := List.countP_mono_left (fun b _ => h b)
  have ht : after.countP p ≤ after.countP q := List.countP_mono_left (fun b _ => h b)
  simp only [List.countP_append, List.countP_cons, hp, hq]
  simp only [Bool.false_eq_true, if_false, if_true]
  omega

/-- Names get longer from try to try, so each used name is met at most once. -/
theorem unused_not_mem (used : List String) (tries : Nat) (name : String)
    (h : used.countP (fun u => decide (name.length ≤ u.length)) ≤ tries) :
    unused used tries name ∉ used := by
  induction tries generalizing name with
  | zero =>
    intro hm
    rw [Nat.le_zero, List.countP_eq_zero] at h
    exact h name hm (by simp)
  | succ tries ih =>
    rw [unused]
    by_cases hm : name ∈ used
    · rw [if_pos hm]
      apply ih
      have hlt : used.countP (fun u => decide ((name.push '_').length ≤ u.length)) <
          used.countP (fun u => decide (name.length ≤ u.length)) := by
        apply countP_lt_of_mem _ _ used name hm
        · simp
        · simp
        · intro u hu
          rw [decide_eq_true_eq, String.length_push] at hu
          exact decide_eq_true (by omega)
      omega
    · rw [if_neg hm]
      exact hm

/-- The name of the mask. -/
def maskName (f : Formula) : String :=
  unused f.names f.names.length "__TMP_REPLACE__"

theorem maskName_fresh (f : Formula) : maskName f ∉ f.occurrences := by
  rw [← mem_names]
  exact unused_not_mem f.names f.names.length _ List.countP_le_length

theorem attempt_keeps (name : String) (f g : Formula) (group : Group) (hu : group.Uniform)
    (hn : name ∉ f.occurrences) (h : attempt (.var name) f group = some g) : Keeps f g := by
  have hc := Compact.run_keeps (f.substitute group.members (.var name))
  simp only [attempt] at h
  split at h
  · cases h
  · cases h
    constructor
    · intro v
      rw [holds_unmasked, hc.holds]
      exact holds_masked f group.members name hn v _ (fun t ht => ((hu.same ht).1 v).symm)
    · intro other ho
      rcases mem_unmasked _ _ _ _ ho with ⟨ho, hne⟩ | ⟨hm, ho⟩
      · rcases mem_masked _ _ _ _ (hc.names other ho) with hf | ⟨he, _⟩
        · exact hf
        · exact absurd he hne
      · rcases mem_masked _ _ _ _ (hc.names name hm) with hf | ⟨_, t, ht, hsub⟩
        · exact absurd hf hn
        · exact hsub other (((hu.same ht).2 other).mp ho)

theorem repeated_uniform (leafKey : Formula → UInt64) (f : Formula) :
    ∀ g ∈ repeated leafKey f, g.Uniform := by
  intro g hg
  rw [repeated, List.mem_mergeSort] at hg
  exact Groups.ofFormula_uniform leafKey f g (List.mem_filter.mp hg).1

/-- The groups are those of the formula at the start of the pass, while each attempt works on
what the ones before it made of the formula. -/
theorem attempts_keep (name : String) (f : Formula) (hn : name ∉ f.occurrences)
    (groups : List Group) (hu : ∀ g ∈ groups, g.Uniform) (changed : Option Formula)
    (hc : Keeps f (changed.getD f)) :
    Keeps f ((groups.foldl (fun changed group =>
      (attempt (.var name) (changed.getD f) group).or changed) changed).getD f) := by
  induction groups generalizing changed with
  | nil => exact hc
  | cons group groups ih =>
    rw [List.forall_mem_cons] at hu
    rw [List.foldl_cons]
    apply ih hu.2
    cases ha : attempt (.var name) (changed.getD f) group with
    | none => exact hc
    | some g =>
      have hn' : name ∉ (changed.getD f).occurrences := fun h => hn (hc.names name h)
      exact hc.trans (attempt_keeps name _ g group hu.1 hn' ha)

theorem pass_keeps (leafKey : Formula → UInt64) (name : String) (f g : Formula)
    (hn : name ∉ f.occurrences) (h : pass leafKey (.var name) f = some g) : Keeps f g := by
  have hk := attempts_keep name f hn _ (repeated_uniform leafKey f) none (.refl f)
  rw [pass] at h
  rwa [h] at hk

theorem passes_keep (leafKey : Formula → UInt64) (name : String) (total left : Nat) (f : Formula)
    (hn : name ∉ f.occurrences) : Keeps f (passes leafKey (.var name) total left f).value := by
  induction left generalizing f with
  | zero => exact .refl f
  | succ left ih =>
    rw [passes]
    split
    · exact .refl f
    · rename_i g hg
      have hk := pass_keeps leafKey name f g hn hg
      exact hk.trans (ih g (fun h => hn (hk.names name h)))

theorem runWith_keeps (leafKey : Formula → UInt64) (f : Formula) :
    Keeps f (runWith leafKey f).value :=
  passes_keep leafKey (maskName f) limit limit f (maskName_fresh f)

/-- Masking keeps the value in every environment that gives one, whatever the keys of leaves are
and however many passes are made, and neither the mask nor any other new name is left behind. -/
theorem masking_keeps_value (leafKey : Formula → UInt64) (f : Formula) :
    (∀ total left env b, f.eval env = .ok b →
      (passes leafKey (mask f) total left f).value.eval env = .ok b) ∧
    (∀ env b, f.eval env = .ok b → (runWith leafKey f).value.eval env = .ok b) ∧
    ∀ name ∈ (runWith leafKey f).value.names, name ∈ f.names := by
  refine ⟨?_, (runWith_keeps leafKey f).eval, ?_⟩
  · intro total left
    exact (passes_keep leafKey (maskName f) total left f (maskName_fresh f)).eval
  · intro name hn
    rw [mem_names] at hn ⊢
    exact (runWith_keeps leafKey f).names name hn

theorem masking_keeps_value_collision :
    (Formula.or (.neg (.and (.var "__TMP_REPLACE__") (.var "a")))
        (.and (.and (.var "a") (.var "__TMP_REPLACE__")) (.var "b"))).eval
          (fun name => [("__TMP_REPLACE__", true), ("a", true), ("b", false)].lookup name) =
        .ok false ∧
    (runWith (fun _ => 1) (.or (.neg (.and (.var "__TMP_REPLACE__") (.var "a")))
        (.and (.and (.var "a") (.var "__TMP_REPLACE__")) (.var "b")))).value.eval
          (fun name => [("__TMP_REPLACE__", true), ("a", true), ("b", false)].lookup name) =
        .ok false :=
  ⟨rfl, (masking_keeps_value _ _).2.1 _ _ rfl⟩

end Simplify.Repeats

end Sentential
