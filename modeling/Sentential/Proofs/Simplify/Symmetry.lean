import Sentential.Proofs.Formula.Symmetry
import Sentential.Simplify.Compact
import Sentential.Simplify.Prune

/-!
# Simplification commutes with symmetries

The laws take the connective as an argument and compare formulas by the test for
alike ones only, so each of them gives the image of its result when it is given
the images of its operands. This is carried through the scan of a chain, the
taking out of common factors and both repetitions. The exchange of the
connectives is one symmetry; a renaming is another.
-/

set_option autoImplicit false

namespace Sentential.Simplify

open Formula

def Verdict.map (g : Formula → Formula) : Verdict → Verdict
  | .keep => .keep
  | .dropLeft => .dropLeft
  | .dropRight => .dropRight
  | .collapse => .collapse
  | .replaceLeft f => .replaceLeft (g f)
  | .replaceRight f => .replaceRight (g f)

def Absorbed.map (g : Formula → Formula) : Absorbed → Absorbed
  | .rest f => .rest (g f)
  | .whole => .whole

section Laws

variable (s : Symmetry)

theorem complementary_eq (a b : Formula) :
    complementary a b = (a.negated?.any (·.alike b) || b.negated?.any (a.alike ·)) := by
  cases a <;> cases b <;> rfl

theorem complementary_apply (a b : Formula) :
    complementary (s.apply a) (s.apply b) = complementary a b := by
  simp only [complementary_eq, s.negated?_apply, Option.any_map, s.alike_apply]

theorem withoutComplement_apply (op : Connective) (term : Formula) (operands : List Formula) :
    withoutComplement (s.connective op) (s.apply term) (operands.map s.apply) =
      (withoutComplement op term operands).map s.apply := by
  rw [withoutComplement, withoutComplement, List.length_map,
    Matching.take?_map s.apply (complementary term) _ operands
      (fun t _ => complementary_apply s term t)]
  by_cases hl : operands.length < 2
  · rw [if_pos hl, if_pos hl]
    rfl
  · rw [if_neg hl, if_neg hl]
    cases Matching.take? (complementary term) operands with
    | none => rfl
    | some rest => exact s.join?_dual_apply op rest

theorem absorbNegated_apply (op : Connective) (term other : Formula) :
    absorbNegated (s.connective op) (s.apply term) (s.apply other) =
      (absorbNegated op term other).map (Absorbed.map s.apply) := by
  cases other with
  | const => rfl
  | var => rfl
  | bin => rfl
  | neg inner =>
    cases inner with
    | const => rfl
    | var => rfl
    | neg => rfl
    | bin p left right =>
      by_cases hp : p = op
      · subst hp
        have ht := s.terms_apply p (.bin p left right)
        have hany : (((bin p left right).terms p).map s.apply).any
            (fun t => complementary t (s.apply term)) =
              ((bin p left right).terms p).any (fun t => complementary t term) := by
          rw [List.any_map]
          congr 1
          funext t
          exact complementary_apply s t term
        simp only [Symmetry.apply_neg, Symmetry.apply_bin, absorbNegated, if_pos] at ht ⊢
        rw [ht, hany, Matching.take?_map s.apply (fun t => t.alike term) _ _
          (fun t _ => s.alike_apply t term)]
        cases Matching.take? (fun t => t.alike term) ((bin p left right).terms p) with
        | none =>
          cases ((bin p left right).terms p).any (fun t => complementary t term) <;> rfl
        | some rest =>
          simp only [Option.map_some, s.join?_apply, Option.map_map]
          congr 1
          funext f
          simp [Absorbed.map, s.opposite_apply]
      · simp only [Symmetry.apply_neg, Symmetry.apply_bin, absorbNegated]
        rw [if_neg hp, if_neg (by simpa using hp)]
        rfl

theorem verdict_apply (op : Connective) (left right : Formula) :
    verdict (s.connective op) (s.apply left) (s.apply right) =
      (verdict op left right).map s.apply := by
  simp only [verdict, s.alike_apply, complementary_apply, s.terms_dual_apply,
    s.termsEmbed_apply, withoutComplement_apply, absorbNegated_apply]
  cases left.alike right with
  | true => rfl
  | false =>
  cases complementary left right with
  | true => rfl
  | false =>
  cases termsEmbed (left.terms op.dual) (right.terms op.dual) with
  | true => rfl
  | false =>
  cases termsEmbed (right.terms op.dual) (left.terms op.dual) with
  | true => rfl
  | false =>
  cases withoutComplement op left (right.terms op.dual) with
  | some f => rfl
  | none =>
  cases withoutComplement op right (left.terms op.dual) with
  | some f => rfl
  | none =>
  cases absorbNegated op left right with
  | some a => cases a <;> rfl
  | none =>
  cases absorbNegated op right left with
  | some a => cases a <;> rfl
  | none => rfl

end Laws

section Factors

variable (s : Symmetry)

def Shared.map (g : Formula → Formula) (shared : Shared) : Shared :=
  ⟨shared.common.map g, shared.rest.map g, shared.others.map (List.map g)⟩

theorem mapM_take?_apply (candidate : Formula) (lists : List (List Formula)) :
    (lists.map (List.map s.apply)).mapM
        (Matching.take? (fun t => t.alike (s.apply candidate))) =
      (lists.mapM (Matching.take? (fun t => t.alike candidate))).map
        (List.map (List.map s.apply)) := by
  induction lists with
  | nil => rfl
  | cons ts lists ih =>
    rw [List.map_cons, List.mapM_cons, List.mapM_cons, ih,
      Matching.take?_map s.apply (fun t => t.alike candidate) _ ts
        (fun t _ => s.alike_apply t candidate)]
    cases Matching.take? (fun t => t.alike candidate) ts with
    | none => rfl
    | some left => cases lists.mapM (Matching.take? (fun t => t.alike candidate)) <;> rfl

theorem ofLists_apply (candidates : List Formula) (others : List (List Formula)) :
    Shared.ofLists (candidates.map s.apply) (others.map (List.map s.apply)) =
      (Shared.ofLists candidates others).map s.apply := by
  induction candidates generalizing others with
  | nil => rfl
  | cons candidate candidates ih =>
    rw [List.map_cons, Shared.ofLists, Shared.ofLists, mapM_take?_apply]
    cases others.mapM (Matching.take? (fun t => t.alike candidate)) with
    | none => simp only [Option.map_none, ih, Shared.map, List.map_cons]
    | some others' => simp only [Option.map_some, ih, Shared.map, List.map_cons]

theorem sharedJoin?_apply (op : Connective) (shared : Shared) :
    (shared.map s.apply).join? (s.connective op) = (shared.join? op).map s.apply := by
  obtain ⟨common, rest, others⟩ := shared
  have hmem : [] ∈ rest.map s.apply :: others.map (List.map s.apply) ↔ [] ∈ rest :: others := by
    simp
  have hjoin : (rest.map s.apply :: others.map (List.map s.apply)).filterMap
      (s.connective op).dual.join? = ((rest :: others).filterMap op.dual.join?).map s.apply := by
    rw [← List.map_cons (f := List.map s.apply), List.filterMap_map, List.map_filterMap]
    congr 1
    funext ts
    exact s.join?_dual_apply op ts
  simp only [Shared.map, Shared.join?, hmem, hjoin, s.join?_apply, s.join?_dual_apply,
    List.map_eq_nil_iff]
  by_cases hc : common = []
  · rw [if_pos hc, if_pos hc]
    rfl
  · rw [if_neg hc, if_neg hc]
    by_cases he : [] ∈ rest :: others
    · rw [if_pos he, if_pos he]
    · rw [if_neg he, if_neg he]
      cases op.join? ((rest :: others).filterMap op.dual.join?) with
      | none => rfl
      | some remainder =>
        rw [← s.join?_dual_apply, List.map_append]
        rfl

theorem factor_apply (op : Connective) (ts : List Formula) :
    factor (s.connective op) (ts.map s.apply) = (factor op ts).map s.apply := by
  have hd (t : Formula) : ((s.apply t).connective? == some (s.connective op).dual) =
      (t.connective? == some op.dual) := by
    rw [Bool.eq_iff_iff, beq_iff_eq, beq_iff_eq, ← s.connective_dual, s.connective?_apply_eq_some]
  have hall (us : List Formula) :
      (us.map s.apply).all (fun t => t.connective? == some (s.connective op).dual) =
        us.all (fun t => t.connective? == some op.dual) := by
    rw [List.all_map]
    congr 1
    funext t
    exact hd t
  have ht (us : List Formula) : (us.map s.apply).map (fun t => t.terms (s.connective op).dual) =
      (us.map (fun t => t.terms op.dual)).map (List.map s.apply) := by
    rw [List.map_map, List.map_map]
    congr 1
    funext t
    exact s.terms_dual_apply op t
  rcases ts with _ | ⟨first, _ | ⟨second, more⟩⟩
  · rfl
  · rfl
  · have hfirst := hall (first :: second :: more)
    have hrest := ht (second :: more)
    rw [List.map_cons, List.map_cons] at hfirst ⊢
    rw [List.map_cons] at hrest
    rw [factor, factor, hfirst, hrest, s.terms_dual_apply, ofLists_apply, sharedJoin?_apply]
    split <;> rfl

end Factors

namespace Compact

variable (s : Symmetry)

def Outcome.map (g : Formula → Formula) : Outcome → Outcome
  | .settled rest => .settled (rest.map g)
  | .dropped rest => .dropped (rest.map g)
  | .collapse => .collapse
  | .replaceFirst f rest => .replaceFirst (g f) (rest.map g)
  | .replaceLater passed f rest => .replaceLater (passed.map g) (g f) (rest.map g)

def Event.map (g : Formula → Formula) : Event → Event
  | .stable ts => .stable (ts.map g)
  | .collapse => .collapse
  | .replace before f after => .replace (before.map g) (g f) (after.map g)

theorem Outcome.map_pass (g : Formula → Formula) (t : Formula) (o : Outcome) :
    (o.pass t).map g = (o.map g).pass (g t) := by
  cases o <;> rfl

theorem Event.map_pass (g : Formula → Formula) (t : Formula) (e : Event) :
    (e.pass t).map g = (e.map g).pass (g t) := by
  cases e <;> rfl

theorem against_apply (op : Connective) (current : Formula) (ts : List Formula) :
    against (s.connective op) (s.apply current) (ts.map s.apply) =
      (against op current ts).map s.apply := by
  induction ts with
  | nil => rfl
  | cons t ts ih =>
    rw [List.map_cons, against, against, verdict_apply]
    cases verdict op current t with
    | keep => rw [Outcome.map_pass, ← ih]; rfl
    | dropRight => exact ih
    | dropLeft => rfl
    | collapse => rfl
    | replaceLeft f => rfl
    | replaceRight f => rfl

/-- The scan without the lengths that make it end. -/
theorem scan_cons (op : Connective) (current : Formula) (ts : List Formula) :
    scan op (current :: ts) =
      match against op current ts with
      | .settled rest => (scan op rest).pass current
      | .dropped rest => scan op rest
      | .collapse => .collapse
      | .replaceFirst f rest => .replace [] f rest
      | .replaceLater passed f rest => .replace (current :: passed) f rest := by
  rw [scan]
  split <;> rename_i tested <;> simp only [tested]

theorem scan_apply (op : Connective) (ts : List Formula) :
    scan (s.connective op) (ts.map s.apply) = (scan op ts).map s.apply := by
  fun_induction scan op ts with
  | case1 => rw [List.map_nil, scan]; rfl
  | case2 current ts rest tested _ ih =>
    rw [List.map_cons, scan_cons, against_apply, tested, Event.map_pass, ← ih]
    rfl
  | case3 current ts rest tested _ ih =>
    rw [List.map_cons, scan_cons, against_apply, tested, ← ih]
    rfl
  | case4 current ts tested =>
    rw [List.map_cons, scan_cons, against_apply, tested]
    rfl
  | case5 current ts f rest tested =>
    rw [List.map_cons, scan_cons, against_apply, tested]
    rfl
  | case6 current ts passed f rest tested =>
    rw [List.map_cons, scan_cons, against_apply, tested]
    rfl

theorem splice_apply (op : Connective) (f : Formula) :
    splice (s.connective op) (s.apply f) = (splice op f).map (List.map s.apply) := by
  simp only [splice, ← s.apply_absorbing, ← s.apply_neutral, s.apply_inj, s.terms_apply]
  split
  · rfl
  · split <;> rfl

/-- The visitor takes the image of a formula to the image of what it makes of the formula. -/
def Visitor.Respects (v : Visitor) : Prop :=
  ∀ f, v.visit (s.apply f) = s.apply (v.visit f)

variable {s} {v : Visitor}

theorem gather_apply (hv : v.Respects s) (op : Connective) (ts : List Formula) :
    gather v (s.connective op) (ts.map s.apply) = (gather v op ts).map (List.map s.apply) := by
  induction ts with
  | nil => rfl
  | cons t ts ih =>
    rw [List.map_cons, gather, gather, hv t, splice_apply, ih]
    cases splice op (v.visit t) with
    | none => rfl
    | some us =>
      cases gather v op ts with
      | none => rfl
      | some rest => simp

theorem settle_apply (hv : v.Respects s) (op : Connective) (ts : List Formula) :
    settle v (s.connective op) (ts.map s.apply) = (settle v op ts).map (List.map s.apply) := by
  fun_induction settle v op ts with
  | case1 ts us scanned =>
    rw [settle_eq, scan_apply, scanned]
    rfl
  | case2 ts scanned =>
    rw [settle_eq, scan_apply, scanned]
    rfl
  | case3 ts before f after scanned spliced =>
    rw [settle_eq, scan_apply, scanned]
    simp only [Event.map, hv f, splice_apply, spliced, Option.map_none]
  | case4 ts before f after scanned us spliced _ ih =>
    rw [settle_eq, scan_apply, scanned, ← ih]
    simp only [Event.map, hv f, splice_apply, spliced, Option.map_some, List.map_append]

theorem chain_apply (hv : v.Respects s) (op : Connective) (ts : List Formula) :
    chain v (s.connective op) (ts.map s.apply) = s.apply (chain v op ts) := by
  have hb : (gather v (s.connective op) (ts.map s.apply)).bind (settle v (s.connective op)) =
      ((gather v op ts).bind (settle v op)).map (List.map s.apply) := by
    rw [gather_apply hv]
    cases gather v op ts with
    | none => rfl
    | some us => exact settle_apply hv op us
  rw [chain, chain, hb]
  cases (gather v op ts).bind (settle v op) with
  | none => exact (s.apply_absorbing op).symm
  | some us =>
    simp only [Option.map_some, factor_apply]
    cases factor op us with
    | none => exact s.join_apply op us
    | some f => exact hv f

theorem step_respects (hv : v.Respects s) (f : Formula) :
    step v (s.apply f) = s.apply (step v f) := by
  cases f with
  | const => rfl
  | var => rfl
  | neg inner => rw [Symmetry.apply_neg, step, step, hv inner, s.foldedNeg_apply]
  | bin op left right =>
    have ht := s.terms_apply op (.bin op left right)
    rw [Symmetry.apply_bin] at ht ⊢
    rw [step, step, ht, chain_apply hv]

theorem visitor_respects (n : Nat) : (visitor n).Respects s := by
  induction n with
  | zero => exact fun _ => rfl
  | succ n ih => exact step_respects ih

variable (s)

theorem run_apply (f : Formula) : run (s.apply f) = s.apply (run f) := by
  rw [run, run, s.size_apply, visitor_respects f.size f]

end Compact

namespace Prune

variable (s : Symmetry)

def Step.map (g : Formula → Formula) : Step → Step
  | .done f => .done (g f)
  | .again f => .again (g f)

theorem absorbInto_apply (op : Connective) (term chain : Formula) :
    absorbInto (s.connective op) (s.apply term) (s.apply chain) =
      (absorbInto op term chain).map s.apply := by
  have hkept (ts : List Formula) :
      (ts.map s.apply).filter (fun t => verdict (s.connective op) (s.apply term) t != .dropRight) =
        (ts.filter (fun t => verdict op term t != .dropRight)).map s.apply := by
    rw [List.filter_map]
    congr 2
    funext t
    rw [Function.comp_apply, verdict_apply]
    cases verdict op term t <;> rfl
  simp only [absorbInto, s.connective?_apply_eq_some, s.terms_apply, hkept, List.length_map,
    s.join?_apply]
  split
  · split
    · rfl
    · cases op.join? ((chain.terms op).filter (fun t => verdict op term t != .dropRight)) <;> rfl
  · rfl

theorem reduce_apply (op : Connective) (left right : Formula) :
    reduce (s.connective op) (s.apply left) (s.apply right) =
      (reduce op left right).map s.apply := by
  simp only [reduce, ← s.apply_absorbing, ← s.apply_neutral, s.apply_inj, verdict_apply,
    absorbInto_apply]
  split
  · rfl
  split
  · rfl
  split
  · rfl
  cases verdict op left right with
  | dropRight => rfl
  | dropLeft => rfl
  | collapse => rfl
  | replaceRight f => rfl
  | replaceLeft f => rfl
  | keep =>
    cases absorbInto op left right with
    | some f => rfl
    | none => cases absorbInto op right left <;> rfl

theorem visit_apply (f : Formula) : visit (s.apply f) = s.apply (visit f) := by
  -- on the size, since what `reduce` wants visited again is no part of `f`
  induction hn : f.size using Nat.strongRecOn generalizing f with
  | ind n ih =>
    subst hn
    cases f with
    | const => simp
    | var => simp
    | neg inner =>
      rw [Symmetry.apply_neg, visit_neg, visit_neg, ih inner.size (by simp [Gauge.size]) inner rfl,
        s.foldedNeg_apply]
    | bin op left right =>
      have hl := ih left.size (smaller_left op left right Gauge.nodes) left rfl
      have hr := ih right.size (smaller_right op left right Gauge.nodes) right rfl
      rw [Symmetry.apply_bin, visit_bin, visit_bin, hl, hr, reduce_apply]
      cases hred : reduce op (visit left) (visit right) with
      | done g => rfl
      | again g =>
        have hw := (visit_within left).bin op (visit_within right)
        exact ih g.size ((reduce_again_smaller hred).trans_within hw Gauge.nodes) g rfl

theorem run_apply (f : Formula) : run (s.apply f) = s.apply (run f) := by
  fun_induction run f with
  | case1 f fixed => rw [run, visit_apply, if_pos ((s.apply_inj _ _).mpr fixed)]
  | case2 f moved ih => rw [run, visit_apply, if_neg (fun h => moved ((s.apply_inj _ _).mp h)), ih]

end Prune

/-- Pruning and compacting treat the two connectives alike: the dual of a formula becomes the dual
of what the formula becomes, tree for tree. -/
theorem simplification_respects_duality (f : Formula) :
    Prune.run f.dual = (Prune.run f).dual ∧ Compact.run f.dual = (Compact.run f).dual := by
  simp only [← Symmetry.apply_duality]
  exact ⟨Prune.run_apply _ f, Compact.run_apply _ f⟩

end Sentential.Simplify
