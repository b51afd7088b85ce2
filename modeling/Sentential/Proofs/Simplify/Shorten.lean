import Sentential.Digest
import Sentential.Proofs.Formula.Negations
import Sentential.Proofs.Simplify.Prune
import Sentential.Proofs.Simplify.Repeats
import Sentential.Simplifier

/-!
# Soundness of rounds

A round is sound if its pruner is, since the other passes are. Rounds are
repeated on the length of the text, so the soundness of a run is an induction
over its rounds; the shortest formula so far and the current one both keep the
meaning of the first. Which parts count as repeated depends on the keys of
leaves, and nothing is assumed about these.
-/

set_option autoImplicit false

namespace Sentential.Simplify.Shorten

open Formula

variable (leafKey : Formula → UInt64)

theorem round_keeps (pruner : Formula → Logged Formula) (hp : ∀ f, Keeps f (pruner f).value)
    (f : Formula) : Keeps f (round leafKey pruner f).value := by
  have hc := (pushNegations_keeps (pruner f).value).trans (Compact.run_keeps _)
  have hr := hc.trans (Repeats.runWith_keeps leafKey _)
  have hpull := hr.trans (pullNegations_keeps _)
  exact ((hp f).trans hpull).trans (Repeats.runWith_keeps leafKey _)

theorem shorter_keeps (f g h : Formula) (hg : Keeps f g) (hh : Keeps f h) :
    Keeps f (shorter g h) := by
  rw [shorter]
  split
  · exact hh
  · exact hg

theorem track_keeps (pruner : Formula → Logged Formula) (hp : ∀ f, Keeps f (pruner f).value)
    (number : Nat) (f shortest current : Formula) (hs : Keeps f shortest) (hc : Keeps f current) :
    Keeps f (track leafKey pruner number shortest current).value := by
  fun_induction track leafKey pruner number shortest current with
  | case1 number shortest current next notices best h result ih =>
    have hn := hc.trans (round_keeps leafKey pruner hp current)
    exact ih (shorter_keeps f shortest next.value hs hn) hn
  | case2 number shortest current next notices best h =>
    exact shorter_keeps f shortest next.value hs (hc.trans (round_keeps leafKey pruner hp current))

theorem rounds_keep (pruner : Formula → Logged Formula) (hp : ∀ f, Keeps f (pruner f).value)
    (number : Nat) (f : Formula) : Keeps f (rounds leafKey pruner number f).value :=
  track_keeps leafKey pruner hp number f f f (.refl f) (.refl f)

/-- Rounds keep the value in every environment that gives one if their pruner does, and pruning on
the binary tree is such a pruner. This holds for all keys of leaves. -/
theorem shortening_keeps_value (leafKey : Formula → UInt64) :
    (∀ pruner : Formula → Logged Formula,
      (∀ g env b, g.eval env = .ok b → (pruner g).value.eval env = .ok b) →
      ∀ f env b, f.eval env = .ok b → (run leafKey pruner f).value.eval env = .ok b) ∧
    ∀ f env b, f.eval env = .ok b →
      (Simplifier.standard.run leafKey f).value.eval env = .ok b := by
  constructor
  · intro pruner hp f
    apply (keeps_iff_eval f _).mp
    exact rounds_keep leafKey pruner (fun g => (keeps_iff_eval g _).mpr (hp g)) 1 f
  · intro f
    apply (keeps_iff_eval f _).mp
    exact rounds_keep leafKey (Simplifier.prune.run leafKey) Prune.run_keeps 1 f

theorem shortening_keeps_value_pushed :
    (∀ g env b, g.eval env = .ok b →
      (Simplifier.pushNegations.run leafDigest g).value.eval env = .ok b) ∧
    (Formula.or (.neg (.and (.var "a") (.neg (.var "b")))) (.var "a")).eval
      (fun name => [("a", true), ("b", false)].lookup name) = .ok true ∧
    (run leafDigest (Simplifier.pushNegations.run leafDigest)
      (.or (.neg (.and (.var "a") (.neg (.var "b")))) (.var "a"))).value.eval
        (fun name => [("a", true), ("b", false)].lookup name) = .ok true := by
  have hp (g : Formula) := (pushNegations_keeps g).eval
  exact ⟨hp, rfl, (shortening_keeps_value leafDigest).1 _ hp _ _ _ rfl⟩

end Sentential.Simplify.Shorten
