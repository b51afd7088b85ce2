import Sentential.Proofs.Simplify.Factor
import Sentential.Simplify.Compact

/-!
# Soundness of compacting

What a scan leaves of a chain is a list of operands, or nothing if the operands
decide the chain. Either way it stands for a formula, and each part of the
compactor keeps the meaning of that formula: the test of one operand against the
later ones, the scan, the splice of a simplified operand, and the repetition of
the scan. The compactor of formulas up to a given size uses the one for smaller
sizes, so its soundness is proved by induction on the size.
-/

set_option autoImplicit false

namespace Sentential

open Formula

/-- The chain over what is left of its operands. It is decided if nothing is given. -/
def Connective.conclude (op : Connective) : Option (List Formula) → Formula
  | none => .const op.absorbing
  | some ts => op.join ts

theorem join_same_keeps (op : Connective) (ts us : List Formula) (h : ∀ t, t ∈ us ↔ t ∈ ts) :
    Keeps (op.join ts) (op.join us) := by
  apply keeps_of_absorbing op
  · intro v
    simp only [holds_join, h]
  · intro name hn
    simpa only [mem_occurrences_join, h] using hn

theorem join_absorbing_keeps (op : Connective) (ts : List Formula)
    (h : .const op.absorbing ∈ ts) : Keeps (op.join ts) (.const op.absorbing) := by
  apply keeps_of_absorbing op
  · intro v
    rw [holds_join]
    exact ⟨fun _ => ⟨_, h, rfl⟩, fun _ => rfl⟩
  · intro name hn
    simp at hn

theorem conclude_within (op : Connective) (before after : List Formula) {ts : List Formula}
    {o : Option (List Formula)} (h : Keeps (op.join ts) (op.conclude o)) :
    Keeps (op.join (before ++ ts ++ after))
      (op.conclude (o.map (fun us => before ++ us ++ after))) := by
  cases o with
  | none =>
    -- the absorbing constant, put in the place of `ts`, decides the whole chain
    have hc : Keeps (op.join ts) (op.join [.const op.absorbing]) := h
    exact (join_append_keeps op (join_append_keeps op (.refl (op.join before)) hc)
      (.refl (op.join after))).trans (join_absorbing_keeps op _ (by simp))
  | some us =>
    exact join_append_keeps op (join_append_keeps op (.refl (op.join before)) h)
      (.refl (op.join after))

theorem conclude_append (op : Connective) (before : List Formula) {ts : List Formula}
    {o : Option (List Formula)} (h : Keeps (op.join ts) (op.conclude o)) :
    Keeps (op.join (before ++ ts)) (op.conclude (o.map (before ++ ·))) := by
  simpa using conclude_within op before [] h

namespace Simplify.Compact

/-- The operands that an outcome leaves of `current` and those after it. -/
def Outcome.operands (current : Formula) : Outcome → Option (List Formula)
  | .settled rest => some (current :: rest)
  | .dropped rest => some rest
  | .collapse => none
  | .replaceFirst f rest => some (f :: rest)
  | .replaceLater passed f rest => some (current :: passed ++ f :: rest)

def Event.operands : Event → Option (List Formula)
  | .stable ts => some ts
  | .collapse => none
  | .replace before f after => some (before ++ f :: after)

theorem Outcome.pass_keeps (op : Connective) (current t : Formula) (o : Outcome) :
    Keeps (op.conclude ((o.operands current).map ([t] ++ ·)))
      (op.conclude ((o.pass t).operands current)) := by
  cases o with
  | settled rest => exact join_same_keeps op _ _ (by simp [or_left_comm])
  | dropped rest => exact .refl _
  | collapse => exact .refl _
  | replaceFirst f rest => exact join_same_keeps op _ _ (by simp [or_left_comm])
  | replaceLater passed f rest => exact join_same_keeps op _ _ (by simp [or_left_comm])

theorem Event.operands_pass (t : Formula) (e : Event) :
    (e.pass t).operands = e.operands.map ([t] ++ ·) := by
  cases e <;> rfl

theorem against_keeps (op : Connective) (current : Formula) (ts : List Formula) :
    Keeps (op.join (current :: ts)) (op.conclude ((against op current ts).operands current)) := by
  induction ts with
  | nil => exact .refl _
  | cons t ts ih =>
    -- nested to the left, a chain starts with the connective of its first two operands
    have hv : Keeps (op.join (current :: t :: ts))
        (op.join ((verdict op current t).result op current t :: ts)) := by
      show Keeps (op.join (.bin op current t :: ts)) _
      exact join_cons_keeps op (verdict_keeps op current t) (.refl (op.join ts))
    rw [against]
    split <;> rename_i h <;> rw [h] at hv
    · have hs : Keeps (op.join (current :: t :: ts)) (op.join ([t] ++ current :: ts)) :=
        join_same_keeps op _ _ (by simp [or_left_comm])
      exact (hs.trans (conclude_append op [t] ih)).trans (Outcome.pass_keeps op current t _)
    · exact hv.trans ih
    · exact hv
    · exact hv.trans (join_absorbing_keeps op _ (by simp [Verdict.result]))
    · exact hv
    · exact hv

theorem scan_keeps (op : Connective) (ts : List Formula) :
    Keeps (op.join ts) (op.conclude (scan op ts).operands) := by
  fun_induction scan op ts with
  | case1 => exact .refl _
  | case2 current ts rest h _ ih =>
    have ha := against_keeps op current ts
    rw [h] at ha
    rw [Event.operands_pass]
    exact ha.trans (conclude_append op [current] ih)
  | case3 current ts rest h _ ih =>
    have ha := against_keeps op current ts
    rw [h] at ha
    exact ha.trans ih
  | case4 current ts h =>
    have ha := against_keeps op current ts
    rwa [h] at ha
  | case5 current ts f rest h =>
    have ha := against_keeps op current ts
    rwa [h] at ha
  | case6 current ts passed f rest h =>
    have ha := against_keeps op current ts
    rwa [h] at ha

theorem splice_keeps (op : Connective) (f : Formula) : Keeps f (op.conclude (splice op f)) := by
  rw [splice]
  by_cases ha : f = .const op.absorbing
  · rw [if_pos ha, ha]
    exact .refl _
  · rw [if_neg ha]
    by_cases hn : f = .const op.neutral
    · rw [if_pos hn, hn]
      exact .refl _
    · rw [if_neg hn]
      exact keeps_join_terms op f

/-- Visiting keeps the meaning of every formula. -/
def Visitor.Sound (v : Visitor) : Prop :=
  ∀ f, Keeps f (v.visit f)

theorem spliced_keeps (v : Visitor) (hs : v.Sound) (op : Connective) (f : Formula) :
    Keeps (op.join [f]) (op.conclude (splice op (v.visit f))) :=
  (hs f).trans (splice_keeps op (v.visit f))

theorem gather_keeps (v : Visitor) (hs : v.Sound) (op : Connective) (ts : List Formula) :
    Keeps (op.join ts) (op.conclude (gather v op ts)) := by
  induction ts with
  | nil => exact .refl _
  | cons t ts ih =>
    have ht := conclude_within op [] ts (spliced_keeps v hs op t)
    rw [gather]
    split <;> rename_i h <;> rw [h] at ht
    · exact ht
    · rename_i us
      exact ht.trans (conclude_append op us ih)

theorem settle_keeps (v : Visitor) (hs : v.Sound) (op : Connective) (ts : List Formula) :
    Keeps (op.join ts) (op.conclude (settle v op ts)) := by
  fun_induction settle v op ts with
  | case1 ts us scanned =>
    have ht := scan_keeps op ts
    rwa [scanned] at ht
  | case2 ts scanned =>
    have ht := scan_keeps op ts
    rwa [scanned] at ht
  | case3 ts before f after scanned spliced =>
    have ht := scan_keeps op ts
    have hf := conclude_within op before after (spliced_keeps v hs op f)
    rw [scanned] at ht
    rw [spliced, List.append_assoc] at hf
    exact ht.trans hf
  | case4 ts before f after scanned us spliced _ ih =>
    have ht := scan_keeps op ts
    have hf := conclude_within op before after (spliced_keeps v hs op f)
    rw [scanned] at ht
    rw [spliced, List.append_assoc] at hf
    exact (ht.trans hf).trans ih

theorem chain_keeps (v : Visitor) (hs : v.Sound) (op : Connective) (ts : List Formula) :
    Keeps (op.join ts) (chain v op ts) := by
  have hb : Keeps (op.join ts) (op.conclude ((gather v op ts).bind (settle v op))) := by
    have hg := gather_keeps v hs op ts
    cases h : gather v op ts with
    | none => rwa [h] at hg
    | some us =>
      rw [h] at hg
      exact hg.trans (settle_keeps v hs op us)
  rw [chain]
  split <;> rename_i h <;> rw [h] at hb
  · exact hb
  · split
    · rename_i f hf
      exact (hb.trans (factor_keeps op _ f hf)).trans (hs f)
    · exact hb

theorem step_sound (v : Visitor) (hs : v.Sound) (f : Formula) : Keeps f (step v f) := by
  cases f with
  | const => exact .refl _
  | var => exact .refl _
  | neg inner => exact (hs inner).neg.trans (foldedNeg_keeps (v.visit inner))
  | bin op left right => exact (keeps_join_terms op _).trans (chain_keeps v hs op _)

theorem visitor_sound (n : Nat) : (visitor n).Sound := by
  induction n with
  | zero => exact .refl
  | succ n ih => exact step_sound (visitor n) ih

theorem run_keeps (f : Formula) : Keeps f (run f) :=
  visitor_sound f.size f

/-- Compacting keeps the value in every environment that gives one, also in those that leave
names undefined. The result is equivalent to the formula and mentions no further name. -/
theorem compaction_keeps_value (f : Formula) :
    (∀ env b, f.eval env = .ok b → (run f).eval env = .ok b) ∧
      (∀ v, (run f).holds v = f.holds v) ∧ ∀ name ∈ (run f).names, name ∈ f.names := by
  refine ⟨(run_keeps f).eval, (run_keeps f).holds, ?_⟩
  intro name hn
  rw [mem_names] at hn ⊢
  exact (run_keeps f).names name hn

theorem compaction_keeps_value_factored :
    (Formula.or (.and (.var "a") (.var "b")) (.and (.var "c") (.var "a"))).eval
        (fun name => [("a", true), ("b", false), ("c", true)].lookup name) = .ok true ∧
    (run (.or (.and (.var "a") (.var "b")) (.and (.var "c") (.var "a")))).eval
        (fun name => [("a", true), ("b", false), ("c", true)].lookup name) = .ok true :=
  ⟨rfl, (compaction_keeps_value _).1 _ _ rfl⟩

end Simplify.Compact

end Sentential
