import Sentential.Formula.Groups
import Sentential.Proofs.Simplify.Compact

/-!
# The normal form of compacting

A formula without constants is solid when it has no doubled negation and each
of its maximal chains is nested to the left, keeps every two of its operands
and has no common factor. Compacting returns a constant or a solid formula and
leaves solid formulas as they are. No repetition of the pass is assumed: the
scan restarts after a replacement, and what it drops or passes by it never has
to test again, because the laws do not depend on the order of two operands.
-/

set_option autoImplicit false

namespace Sentential.Simplify

open Formula

/-- No law applies to the two operands, in either order. -/
def Apart (op : Connective) (s t : Formula) : Prop :=
  verdict op s t = .keep ∧ verdict op t s = .keep

/-- A chain of `op` to which neither a law nor a common factor applies. -/
structure SettledChain (op : Connective) (f : Formula) : Prop where
  nested : op.join (f.terms op) = f
  kept : (f.terms op).Pairwise (Apart op)
  unfactored : factor op (f.terms op) = none

inductive Solid : Formula → Prop
  | var (name : String) : Solid (.var name)
  | neg {f : Formula} : Solid f → f.negated? = none → Solid (.neg f)
  | chain {op : Connective} {left right : Formula} : SettledChain op (.bin op left right) →
      (∀ t ∈ (bin op left right).terms op, Solid t) → Solid (.bin op left right)

namespace Solid

theorem not_const {f : Formula} (h : Solid f) (b : Bool) : f ≠ .const b := by
  cases h <;> simp

theorem terms {f t : Formula} (h : Solid f) {op : Connective} (ht : t ∈ f.terms op) :
    Solid t := by
  by_cases hf : f.connective? = some op
  · cases h with
    | var name => simp [connective?] at hf
    | neg _ _ => simp [connective?] at hf
    | chain hs hall =>
      cases hf
      exact hall t ht
  · rw [terms_of_connective_ne hf, List.mem_singleton] at ht
    exact ht ▸ h

/-- A condition that chains take over from their operands fails on every solid formula if it fails
on variables and the negation of a formula that is not negated does not bring it in. -/
theorem not_of_additive {P : Formula → Prop} (had : ∀ op, Additive op P)
    (hvar : ∀ name, ¬P (.var name)) (hneg : ∀ f, f.negated? = none → ¬P f → ¬P (.neg f))
    {f : Formula} (h : Solid f) : ¬P f := by
  induction h with
  | var name => exact hvar name
  | neg _ hn ih => exact hneg _ hn ih
  | @chain op left right _ _ ih =>
    rw [← (had op).terms (.bin op left right)]
    rintro ⟨t, ht, hp⟩
    exact ih t ht hp

theorem hasConstant {f : Formula} (h : Solid f) : f.hasConstant = false := by
  rw [← Bool.not_eq_true]
  refine h.not_of_additive (P := fun f => f.hasConstant = true) ?_ ?_ ?_
  · intro op left right
    simp [Formula.hasConstant]
  · simp [Formula.hasConstant]
  · intro f _ hf
    exact hf

theorem noDoubleNegation {f : Formula} (h : Solid f) (g : Formula) :
    .neg (.neg g) ∉ f.innerNodes := by
  refine h.not_of_additive (P := fun f => .neg (.neg g) ∈ f.innerNodes) ?_ ?_ ?_
  · intro op left right
    simp
  · simp
  · intro f hn hf
    rw [innerNodes_neg, List.mem_append, not_or, List.mem_singleton]
    refine ⟨hf, ?_⟩
    rintro ⟨⟩
    cases hn

theorem chains {f : Formula} (h : Solid f) {op : Connective} {left right : Formula}
    (hc : .bin op left right ∈ f.chains) : SettledChain op (.bin op left right) := by
  induction h with
  | var name => simp [Formula.chains, chainsUnder] at hc
  | neg _ _ ih => exact ih hc
  | chain hs _ ih =>
    rcases (mem_chains_bin _ _ _ _).mp hc with he | ⟨t, ht, hc⟩
    · cases he
      exact hs
    · exact ih t ht hc

end Solid

/-- What compacting returns. -/
def Normal (f : Formula) : Prop :=
  (∃ b, f = .const b) ∨ Solid f

/-- Operands of a chain of `op` that are solid and not chains of `op` themselves. -/
def Operands (op : Connective) (ts : List Formula) : Prop :=
  ∀ t ∈ ts, Solid t ∧ t.connective? ≠ some op

theorem Operands.append {op : Connective} {ts us : List Formula} (ht : Operands op ts)
    (hu : Operands op us) : Operands op (ts ++ us) := by
  intro t h
  exact (List.mem_append.mp h).elim (ht t) (hu t)

theorem Operands.sublist {op : Connective} {ts us : List Formula} (ht : Operands op ts)
    (hs : us.Sublist ts) : Operands op us :=
  fun t h => ht t (hs.mem h)

/-- A chain over settled operands is normal, also if it has no operand or only one. -/
theorem join_normal {op : Connective} {ts : List Formula} (ht : Operands op ts)
    (hk : ts.Pairwise (Apart op)) (hf : factor op ts = none) : Normal (op.join ts) := by
  cases ts with
  | nil => exact .inl ⟨op.neutral, rfl⟩
  | cons first rest =>
    have hterms := terms_join op (first :: rest) (by simp) (fun t h => (ht t h).2)
    cases rest with
    | nil => exact .inr (ht first (by simp)).1
    | cons second more =>
      obtain ⟨left, right, hjoin⟩ := join_shape op (first :: second :: more) (by simp)
      rw [hjoin] at hterms ⊢
      refine .inr (.chain ⟨?_, ?_, ?_⟩ ?_)
      · rw [hterms, hjoin]
      · rwa [hterms]
      · rwa [hterms]
      · rw [hterms]
        exact fun t h => (ht t h).1

namespace Compact

/-- The operands after the tested one that an outcome leaves as they are. -/
def Outcome.untouched : Outcome → List Formula
  | .settled rest => rest
  | .dropped rest => rest
  | .collapse => []
  | .replaceFirst _ rest => rest
  | .replaceLater passed _ rest => passed ++ rest

def Event.untouched : Event → List Formula
  | .stable ts => ts
  | .collapse => []
  | .replace before _ after => before ++ after

theorem Outcome.untouched_pass (t : Formula) (o : Outcome) :
    (o.pass t).untouched.Sublist (t :: o.untouched) := by
  cases o with
  | collapse => exact List.nil_sublist _
  | settled rest => exact .refl _
  | dropped rest => exact .refl _
  | replaceFirst f rest => exact .refl _
  | replaceLater passed f rest => exact .refl _

theorem Event.untouched_pass (t : Formula) (e : Event) :
    (e.pass t).untouched.Sublist (t :: e.untouched) := by
  cases e with
  | collapse => exact List.nil_sublist _
  | stable ts => exact .refl _
  | replace before f after => exact .refl _

theorem against_untouched (op : Connective) (current : Formula) (ts : List Formula) :
    (against op current ts).untouched.Sublist ts := by
  induction ts with
  | nil => exact .refl _
  | cons t ts ih =>
    rw [against]
    split
    · exact (Outcome.untouched_pass t _).trans (ih.cons_cons t)
    · exact ih.cons t
    · exact .refl _
    · exact List.nil_sublist _
    · exact .refl _
    · exact List.sublist_cons_self t ts

theorem scan_untouched (op : Connective) (ts : List Formula) :
    (scan op ts).untouched.Sublist ts := by
  fun_induction scan op ts with
  | case1 => exact .refl _
  | case2 current ts rest h _ ih =>
    have ha := against_untouched op current ts
    rw [h] at ha
    exact (Event.untouched_pass current _).trans ((ih.trans ha).cons_cons current)
  | case3 current ts rest h _ ih =>
    have ha := against_untouched op current ts
    rw [h] at ha
    exact (ih.trans ha).cons current
  | case4 current ts h => exact List.nil_sublist _
  | case5 current ts f rest h =>
    have ha := against_untouched op current ts
    rw [h] at ha
    exact ha.cons current
  | case6 current ts passed f rest h =>
    have ha := against_untouched op current ts
    rw [h] at ha
    exact ha.cons_cons current

theorem against_settled_kept (op : Connective) (current : Formula) (ts rest : List Formula)
    (h : against op current ts = .settled rest) : ∀ t ∈ rest, verdict op current t = .keep := by
  induction ts generalizing rest with
  | nil =>
    cases h
    simp
  | cons t ts ih =>
    rw [against] at h
    split at h
    · rename_i hv
      cases ha : against op current ts with
      | settled rest' =>
        rw [ha] at h
        cases h
        exact List.forall_mem_cons.mpr ⟨hv, ih rest' ha⟩
      | dropped => simp [ha, Outcome.pass] at h
      | collapse => simp [ha, Outcome.pass] at h
      | replaceFirst => simp [ha, Outcome.pass] at h
      | replaceLater => simp [ha, Outcome.pass] at h
    · exact ih rest h
    all_goals cases h

/-- A scan without a replacement tests every two of the operands that it leaves. -/
theorem scan_stable_kept (op : Connective) (ts us : List Formula) (h : scan op ts = .stable us) :
    us.Pairwise (Apart op) := by
  fun_induction scan op ts generalizing us with
  | case1 =>
    cases h
    exact .nil
  | case2 current ts rest ha _ ih =>
    have hs := scan_untouched op rest
    cases he : scan op rest with
    | stable vs =>
      rw [he] at h hs
      cases h
      refine List.pairwise_cons.mpr ⟨?_, ih vs he⟩
      intro t ht
      have hk := against_settled_kept op current ts rest ha t (hs.mem ht)
      exact ⟨hk, verdict_keep_comm op current t hk⟩
    | collapse => simp [he, Event.pass] at h
    | replace => simp [he, Event.pass] at h
  | case3 current ts rest _ _ ih => exact ih us h
  | case4 => cases h
  | case5 => cases h
  | case6 => cases h

theorem splice_operands {op : Connective} {f : Formula} (hf : Normal f) {us : List Formula}
    (h : splice op f = some us) : Operands op us := by
  rw [splice] at h
  by_cases ha : f = .const op.absorbing
  · rw [if_pos ha] at h
    cases h
  · rw [if_neg ha] at h
    by_cases hn : f = .const op.neutral
    · rw [if_pos hn] at h
      cases h
      simp [Operands]
    · rw [if_neg hn] at h
      cases h
      rcases hf with ⟨b, rfl⟩ | hf
      · rw [(op.ne_absorbing_iff b).mp (fun hb => ha (hb ▸ rfl))] at hn
        exact absurd rfl hn
      · exact fun t ht => ⟨hf.terms ht, connective_of_mem_terms ht⟩

theorem gather_operands (v : Visitor) (op : Connective) (ts us : List Formula)
    (hv : ∀ t ∈ ts, Normal (v.visit t)) (h : gather v op ts = some us) : Operands op us := by
  induction ts generalizing us with
  | nil =>
    cases h
    simp [Operands]
  | cons t ts ih =>
    rw [gather] at h
    split at h
    · cases h
    · rename_i first hs
      obtain ⟨rest, hg, rfl⟩ := Option.map_eq_some_iff.mp h
      exact (splice_operands (hv t (by simp)) hs).append
        (ih rest (fun u hu => hv u (by simp [hu])) hg)

/-- Visiting normalizes every formula of fewer than `n` nodes. -/
def Visitor.NormalBelow (n : Nat) (v : Visitor) : Prop :=
  ∀ f : Formula, f.size < n → Normal (v.visit f)

theorem settle_operands {n : Nat} (v : Visitor) (hv : v.NormalBelow n) (op : Connective)
    (ts us : List Formula) (hb : totalSize ts ≤ n + 1) (ht : Operands op ts)
    (h : settle v op ts = some us) : Operands op us ∧ us.Pairwise (Apart op) := by
  fun_induction settle v op ts with
  | case1 ts vs scanned =>
    cases h
    have hs := scan_untouched op ts
    rw [scanned] at hs
    exact ⟨ht.sublist hs, scan_stable_kept op ts _ scanned⟩
  | case2 => cases h
  | case3 => cases h
  | case4 ts before f after scanned vs spliced _ ih =>
    have hs := scan_untouched op ts
    have hf := scan_bounded Gauge.nodes op ts
    have hl := total_replaced_lt v scanned spliced Gauge.nodes
    rw [scanned] at hs hf
    have hrest := ht.sublist hs
    have hless : f.size < n := by
      simp only [Event.Bounded, totalSize, Formula.size] at *
      omega
    have hvs := splice_operands (hv f hless) spliced
    apply ih
    · simp only [totalSize] at *
      omega
    · exact ((hrest.sublist (List.sublist_append_left _ _)).append hvs).append
        (hrest.sublist (List.sublist_append_right _ _))
    · exact h

theorem chain_normal {n : Nat} (v : Visitor) (hv : v.NormalBelow n) (op : Connective)
    (ts : List Formula) (hsmall : ∀ t ∈ ts, t.size < n) (hb : totalSize ts ≤ n + 1) :
    Normal (chain v op ts) := by
  rw [chain]
  split
  · exact .inl ⟨op.absorbing, rfl⟩
  · rename_i us h
    obtain ⟨gathered, hg, hs⟩ := Option.bind_eq_some_iff.mp h
    have hgt := total_gather v hg Gauge.nodes
    have hst := total_settle v hs Gauge.nodes
    have hgo := gather_operands v op ts gathered (fun t ht => hv t (hsmall t ht)) hg
    have hso := settle_operands v hv op gathered us (Nat.le_trans hgt hb) hgo hs
    split
    · rename_i f hf
      have hsize := factor_size Gauge.nodes hf
      apply hv f
      simp only [totalSize, Formula.size] at *
      omega
    · rename_i hf
      exact join_normal hso.1 hso.2 hf

theorem foldedNeg_normal {f : Formula} (h : Normal f) : Normal f.foldedNeg := by
  rcases h with ⟨b, rfl⟩ | h
  · exact .inl ⟨!b, rfl⟩
  · refine .inr ?_
    cases h with
    | var name => exact .neg (.var name) rfl
    | neg hf _ => exact hf
    | chain hs hall => exact .neg (.chain hs hall) rfl

theorem run_normal (f : Formula) : Normal (run f) := by
  -- the operands, the replacements and the factored chain are all smaller than `f`
  induction hn : f.size using Nat.strongRecOn generalizing f with
  | ind n ih =>
    subst hn
    have hv : compactor.NormalBelow f.size := fun g hg => ih g.size hg g rfl
    cases f with
    | const b => exact .inl ⟨b, run_const b⟩
    | var name =>
      rw [run_var]
      exact .inr (.var name)
    | neg inner =>
      rw [run_neg]
      exact foldedNeg_normal (hv inner (by simp [Gauge.size]))
    | bin op left right =>
      rw [run_bin]
      exact chain_normal compactor hv op _ (fun t ht => size_lt_of_mem_terms ht)
        (Nat.le_of_eq (Gauge.nodes.total_terms op _))

theorem against_of_kept (op : Connective) (current : Formula) (ts : List Formula)
    (h : ∀ t ∈ ts, verdict op current t = .keep) : against op current ts = .settled ts := by
  induction ts with
  | nil => rfl
  | cons t ts ih =>
    rw [against, h t (by simp), ih (fun u hu => h u (by simp [hu]))]
    rfl

theorem scan_of_kept (op : Connective) (ts : List Formula) (h : ts.Pairwise (Apart op)) :
    scan op ts = .stable ts := by
  induction ts with
  | nil => rw [scan]
  | cons t ts ih =>
    rw [List.pairwise_cons] at h
    have ha := against_of_kept op t ts (fun u hu => (h.1 u hu).1)
    rw [scan]
    split <;> rename_i hr <;> rw [ha] at hr <;> cases hr
    rw [ih h.2]
    rfl

theorem settle_of_kept (v : Visitor) (op : Connective) (ts : List Formula)
    (h : ts.Pairwise (Apart op)) : settle v op ts = some ts := by
  rw [settle_eq, scan_of_kept op ts h]

theorem splice_operand (op : Connective) (t : Formula) (ht : Solid t)
    (hc : t.connective? ≠ some op) : splice op t = some [t] := by
  rw [splice, if_neg (ht.not_const _), if_neg (ht.not_const _), terms_of_connective_ne hc]

theorem gather_of_fixed (v : Visitor) (op : Connective) (ts : List Formula)
    (ht : Operands op ts) (hv : ∀ t ∈ ts, v.visit t = t) : gather v op ts = some ts := by
  induction ts with
  | nil => rfl
  | cons t ts ih =>
    have hs := splice_operand op t (ht t (by simp)).1 (ht t (by simp)).2
    rw [gather, hv t (by simp), hs,
      ih (fun u hu => ht u (by simp [hu])) (fun u hu => hv u (by simp [hu]))]
    rfl

theorem run_of_solid {f : Formula} (h : Solid f) : run f = f := by
  induction h with
  | var name => exact run_var name
  | @neg f hf hn ih =>
    rw [run_neg, ih]
    cases hf with
    | var name => rfl
    | neg _ _ => cases hn
    | chain _ _ => rfl
  | @chain op left right hs hall ih =>
    have ho : Operands op ((bin op left right).terms op) :=
      fun t ht => ⟨hall t ht, connective_of_mem_terms ht⟩
    have hg := gather_of_fixed compactor op _ ho ih
    have hk := settle_of_kept compactor op _ hs.kept
    rw [run_bin, chain, hg, Option.bind_some, hk]
    simp only [hs.unfactored]
    exact hs.nested

/-- Compacting reaches its normal form in one pass. A second pass returns the very same formula,
which is a constant, or has no constant and no doubled negation, and whose maximal chains are
nested to the left, keep every two operands in either order and have no common factor. -/
theorem compaction_reaches_normal_form (f : Formula) :
    run (run f) = run f ∧
      ((∃ b, run f = .const b) ∨
        (run f).hasConstant = false ∧ (∀ g, .neg (.neg g) ∉ (run f).innerNodes) ∧
          ∀ op left right, .bin op left right ∈ (run f).chains →
            SettledChain op (.bin op left right)) := by
  rcases run_normal f with ⟨b, hb⟩ | hs
  · rw [hb]
    exact ⟨run_const b, .inl ⟨b, rfl⟩⟩
  · exact ⟨run_of_solid hs, .inr ⟨hs.hasConstant, hs.noDoubleNegation,
      fun op left right hc => hs.chains hc⟩⟩

/-- The factored chain and the chain that is left inside it are both settled. -/
theorem compaction_reaches_normal_form_factored :
    run (.or (.and (.var "a") (.var "b")) (.and (.var "c") (.var "a"))) =
        .and (.var "a") (.or (.var "b") (.var "c")) ∧
      SettledChain .and (.and (.var "a") (.or (.var "b") (.var "c"))) ∧
      SettledChain .or (.or (.var "b") (.var "c")) := by
  have hr : run (.or (.and (.var "a") (.var "b")) (.and (.var "c") (.var "a"))) =
      .and (.var "a") (.or (.var "b") (.var "c")) := by decide +kernel
  have hn := (compaction_reaches_normal_form
    (.or (.and (.var "a") (.var "b")) (.and (.var "c") (.var "a")))).2
  rw [hr] at hn
  rcases hn with ⟨b, hb⟩ | ⟨_, _, hc⟩
  · cases hb
  · exact ⟨hr, hc _ _ _ (by decide), hc _ _ _ (by decide)⟩

end Compact

end Sentential.Simplify
