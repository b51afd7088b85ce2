import Sentential.Formula.Groups
import Sentential.Proofs.Formula.Reordering

/-!
# Uniform groups

Every member of a group is alike its first member. Nothing is assumed about the
keys of leaves: a group takes a formula only after its first member was compared
with it, whichever key led there.
-/

set_option autoImplicit false

namespace Sentential

open Formula

def Group.Uniform (g : Group) : Prop := ∀ f ∈ g.more, g.first.alike f = true

theorem Group.Uniform.push {g : Group} {f : Formula} (h : g.Uniform)
    (hf : g.first.alike f = true) : (g.push f).Uniform := by
  intro t ht
  rcases List.mem_append.mp ht with ht | ht
  · exact h t ht
  · rw [List.mem_singleton.mp ht]
    exact hf

theorem Group.Uniform.same {g : Group} {f : Formula} (h : g.Uniform) (hf : f ∈ g.members) :
    (∀ v, g.first.holds v = f.holds v) ∧
      ∀ name, name ∈ g.first.occurrences ↔ name ∈ f.occurrences := by
  rcases List.mem_cons.mp hf with rfl | hf
  · exact ⟨fun _ => rfl, fun _ => .rfl⟩
  · exact alike_same g.first f (h f hf)

namespace Groups

theorem place_cases (p : Group → Bool) (k : UInt64) (f : Formula) (groups : List Group) :
    (∃ before g after, groups = before ++ g :: after ∧ groups.find? p = some g ∧
      place p k f groups = before ++ g.push f :: after) ∨
    (groups.find? p = none ∧ place p k f groups = groups ++ [⟨k, f, []⟩]) := by
  induction groups with
  | nil => exact .inr ⟨rfl, rfl⟩
  | cons g groups ih =>
    rw [place]
    by_cases hg : p g = true
    · rw [if_pos hg, List.find?_cons_of_pos hg]
      exact .inl ⟨[], g, groups, rfl, rfl, rfl⟩
    · rw [if_neg hg, List.find?_cons_of_neg hg]
      rcases ih with ⟨before, h, after, he, hf, hp⟩ | ⟨hf, hp⟩
      · rw [hp]
        exact .inl ⟨g :: before, h, after, by rw [he, List.cons_append], hf, rfl⟩
      · rw [hp]
        exact .inr ⟨hf, rfl⟩

theorem slot?_accepts (groups : List Group) (f : Formula) (tries : Nat) (k k' : UInt64)
    (h : slot? groups f tries k = some k') : accepts groups f k' = true := by
  induction tries generalizing k with
  | zero => cases h
  | succ tries ih =>
    rw [slot?] at h
    by_cases ha : accepts groups f k = true
    · rw [if_pos ha] at h
      cases h
      exact ha
    · rw [if_neg ha] at h
      exact ih (nextKey k) h

/-- A formula joins a group whose first member is alike, or opens a group behind all others. -/
theorem insert_cases (groups : List Group) (f : Formula) (k : UInt64) :
    (∃ before g after, groups = before ++ g :: after ∧ g.first.alike f = true ∧
      insert groups f k = before ++ g.push f :: after) ∨
    ∃ k', insert groups f k = groups ++ [⟨k', f, []⟩] := by
  rw [insert]
  split
  · rename_i k' hs
    have ha := slot?_accepts groups f _ k k' hs
    rcases place_cases (fun g => g.key == k') k' f groups with
      ⟨before, g, after, he, hf, hp⟩ | ⟨_, hp⟩
    · rw [accepts, hf] at ha
      exact .inl ⟨before, g, after, he, ha, hp⟩
    · exact .inr ⟨k', hp⟩
  · rcases place_cases (fun g => g.first.alike f) k f groups with
      ⟨before, g, after, he, hf, hp⟩ | ⟨_, hp⟩
    · exact .inl ⟨before, g, after, he, by simpa using List.find?_some hf, hp⟩
    · exact .inr ⟨k, hp⟩

theorem insert_uniform (groups : List Group) (f : Formula) (k : UInt64)
    (hu : ∀ g ∈ groups, g.Uniform) : ∀ g ∈ insert groups f k, g.Uniform := by
  rcases insert_cases groups f k with ⟨before, g, after, rfl, ha, hi⟩ | ⟨k', hi⟩
  · rw [List.forall_mem_append, List.forall_mem_cons] at hu
    rw [hi, List.forall_mem_append, List.forall_mem_cons]
    exact ⟨hu.1, hu.2.1.push ha, hu.2.2⟩
  · rw [hi, List.forall_mem_append, List.forall_mem_singleton]
    exact ⟨hu, fun t ht => absurd ht (List.not_mem_nil)⟩

theorem ofFormula_uniform (leafKey : Formula → UInt64) (f : Formula) :
    ∀ g ∈ ofFormula leafKey f, g.Uniform := by
  have hfold (nodes : List Formula) (groups : List Group) (hu : ∀ g ∈ groups, g.Uniform) :
      ∀ g ∈ nodes.foldl (fun groups g => insert groups g (g.key leafKey)) groups, g.Uniform := by
    induction nodes generalizing groups with
    | nil => exact hu
    | cons node nodes ih => exact ih _ (insert_uniform groups node _ hu)
  exact hfold f.innerNodes [] (by simp)

end Groups

end Sentential
