import Sentential.Simplify.Shorten

/-!
# Simplifiers

The ways to simplify formulas that this library offers, as data. Rounds of
shortening may start with any of them, also with rounds of their own. Two of
them look for repeated parts and take the keys of leaves for that.
-/

set_option autoImplicit false

namespace Sentential

inductive Simplifier where
  | identity
  | pushNegations
  | pullNegations
  | prune
  | compact
  | repeats
  /-- Rounds that start with the given pruner. -/
  | shorten (pruner : Simplifier)
  deriving DecidableEq, Repr

namespace Simplifier

def run (leafKey : Formula → UInt64) : Simplifier → Formula → Logged Formula
  | .identity, f => pure f
  | .pushNegations, f => pure f.pushNegations
  | .pullNegations, f => pure f.pullNegations
  | .prune, f => pure (Simplify.Prune.run f)
  | .compact, f => pure (Simplify.Compact.run f)
  | .repeats, f => Simplify.Repeats.runWith leafKey f
  | .shorten pruner, f => Simplify.Shorten.run leafKey (pruner.run leafKey) f

/-- The rounds that start with pruning on the binary tree. -/
def standard : Simplifier := .shorten .prune

end Simplifier

end Sentential
