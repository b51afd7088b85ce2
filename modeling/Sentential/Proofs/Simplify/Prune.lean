import Sentential.Proofs.Simplify.Laws
import Sentential.Simplify.Prune

/-!
# Soundness of pruning

One look at a connective keeps what it means, whether its result is final or is
visited again. A visit and its repetition follow by induction on the size of the
formula, which is what makes both of them end.
-/

set_option autoImplicit false

namespace Sentential.Simplify.Prune

open Formula

def Step.result : Step → Formula
  | .done f => f
  | .again f => f

theorem dropRight_absorbing (op : Connective) (term t : Formula)
    (h : verdict op term t = .dropRight) (v : Valuation) (ht : t.holds v = op.absorbing) :
    term.holds v = op.absorbing := by
  have hv := (verdict_keeps op term t).holds v
  rw [h] at hv
  exact hv.trans ((holds_bin_absorbing op term t v).mpr (.inr ht))

theorem filter_keeps (op : Connective) (term : Formula) (ts : List Formula) :
    Keeps (op.join (term :: ts))
      (op.join (term :: ts.filter (fun t => verdict op term t != .dropRight))) := by
  apply keeps_of_absorbing op
  · intro v
    simp only [holds_join, List.mem_cons, exists_eq_or_imp, List.mem_filter]
    constructor
    · exact Or.imp_right (fun ⟨t, ht, hv⟩ => ⟨t, ht.1, hv⟩)
    · rintro (hv | ⟨t, ht, hv⟩)
      · exact .inl hv
      · by_cases hd : verdict op term t = .dropRight
        · exact .inl (dropRight_absorbing op term t hd v hv)
        · exact .inr ⟨t, ⟨ht, by simp [hd]⟩, hv⟩
  · intro name
    simp only [mem_occurrences_join, List.mem_cons, exists_eq_or_imp, List.mem_filter]
    exact Or.imp_right (fun ⟨t, ht, hn⟩ => ⟨t, ht.1, hn⟩)

theorem absorbInto_keeps (op : Connective) (term chain f : Formula)
    (h : absorbInto op term chain = some f) : Keeps (.bin op term chain) f := by
  have hchain : Keeps (.bin op term chain) (op.join (term :: chain.terms op)) := by
    show Keeps (op.join [term, chain]) _
    exact join_cons_keeps op (.refl term) (keeps_join_terms op chain)
  have hkept := hchain.trans (filter_keeps op term (chain.terms op))
  unfold absorbInto at h
  split at h
  · dsimp only at h
    split at h
    · cases h
    · split at h
      · rename_i rest hj
        cases h
        rw [← op.join_eq_of_some hj]
        exact hkept.trans (join_cons_nested_keeps op term _)
      · rename_i hj
        cases h
        rwa [(op.join?_eq_none _).mp hj] at hkept
  · cases h

theorem reduce_keeps (op : Connective) (left right : Formula) :
    Keeps (.bin op left right) (reduce op left right).result := by
  have hv := verdict_keeps op left right
  unfold reduce
  repeat' split
  · rename_i h
    subst h
    apply drop_left_keeps
    intro v hv
    exact absurd hv op.neutral_ne_absorbing
  · rename_i h
    subst h
    apply drop_right_keeps
    intro v hv
    exact absurd hv op.neutral_ne_absorbing
  · rename_i h
    apply keeps_of_absorbing op
    · intro v
      rw [holds_bin_absorbing]
      refine ⟨fun _ => ?_, fun _ => rfl⟩
      exact h.imp (fun hl => by rw [hl, holds]) (fun hr => by rw [hr, holds])
    · intro name hn
      cases hn
  all_goals rename_i h
  · rwa [h] at hv
  · rwa [h] at hv
  · rwa [h] at hv
  · rwa [h] at hv
  · rwa [h] at hv
  · exact absorbInto_keeps op left right _ h
  · exact (bin_comm_keeps op left right).trans (absorbInto_keeps op right left _ h)
  · exact .refl _

theorem visit_keeps (f : Formula) : Keeps f (visit f) := by
  induction hn : f.size using Nat.strongRecOn generalizing f with
  | ind n ih =>
    subst hn
    cases f with
    | const value =>
      rw [visit_const]
      exact .refl _
    | var name =>
      rw [visit_var]
      exact .refl _
    | neg inner =>
      rw [visit_neg]
      have hi := ih inner.size (by simp [Gauge.size]) inner rfl
      exact hi.neg.trans (foldedNeg_keeps (visit inner))
    | bin op left right =>
      have hl := ih left.size (smaller_left op left right Gauge.nodes) left rfl
      have hr := ih right.size (smaller_right op left right Gauge.nodes) right rfl
      have hk := (Keeps.bin op hl hr).trans (reduce_keeps op (visit left) (visit right))
      rw [visit_bin]
      split <;> rename_i g hg <;> rw [hg] at hk
      · exact hk
      · have hw := (visit_within left).bin op (visit_within right)
        have hs := (reduce_again_smaller hg).trans_within hw Gauge.nodes
        exact hk.trans (ih g.size hs g rfl)

theorem run_keeps (f : Formula) : Keeps f (run f) := by
  fun_induction run f with
  | case1 f => exact .refl f
  | case2 f _ ih => exact (visit_keeps f).trans ih

/-- Pruning keeps the value in every environment that gives one, also in those that leave names
undefined. The result is equivalent to the formula and mentions no further name. -/
theorem pruning_keeps_value (f : Formula) :
    (∀ env b, f.eval env = .ok b → (run f).eval env = .ok b) ∧
      (∀ v, (run f).holds v = f.holds v) ∧ ∀ name ∈ (run f).names, name ∈ f.names := by
  refine ⟨(run_keeps f).eval, (run_keeps f).holds, ?_⟩
  intro name hn
  rw [mem_names] at hn ⊢
  exact (run_keeps f).names name hn

theorem pruning_keeps_value_nested :
    (Formula.or (.var "a") (.or (.var "c") (.and (.var "b") (.neg (.neg (.var "a")))))).eval
        (fun name => [("a", false), ("b", true), ("c", true)].lookup name) = .ok true ∧
    (run (.or (.var "a") (.or (.var "c") (.and (.var "b") (.neg (.neg (.var "a"))))))).eval
        (fun name => [("a", false), ("b", true), ("c", true)].lookup name) = .ok true :=
  ⟨rfl, (pruning_keeps_value _).1 _ _ rfl⟩

end Sentential.Simplify.Prune
