import Sentential.Proofs.Formula.Rearrangement
import Sentential.Proofs.Simplify.NormalForm
import Sentential.Proofs.Simplify.Repeats
import Sentential.Simplify.Prune

/-!
# Simplifying only shrinks

Every change that pruning or masking makes gives a formula that is smaller in
every gauge. Compacting may also put the operands of a chain in another order or
nesting; where it does no more than that, its result is alike the formula, and
otherwise smaller in every gauge too. A gauge may charge variables nothing, so a
chain that is replaced by a constant has to pay for it with its own connective or
with an operand that is as large as a constant.

That the gauge is arbitrary carries the argument over to masking: what is smaller
with a mask in it is smaller with the masked part put back, because a gauge that
charges the mask as much as the part gives both the same size.
-/

set_option autoImplicit false

namespace Sentential

open Formula

theorem Gauge.total_eq_of_termsAlike (m : Gauge) {ts us : List Formula}
    (h : termsAlike ts us = true) : m.total us = m.total ts := by
  rw [termsAlike, Matching.pairsUp, Bool.and_eq_true, beq_iff_eq] at h
  obtain ⟨left, hl⟩ := Option.isSome_iff_exists.mp h.2
  have hn : left = [] := by
    have hlength := Matching.length_leftover? hl
    exact List.length_eq_zero_iff.mp (by omega)
  rw [m.total_leftover? (fun t _ u hu => m.size_eq_of_alike hu) hl, hn]
  simp

theorem Gauge.bin_le_total (m : Gauge) {ts : List Formula} (h : ts ≠ []) : m.bin ≤ m.total ts := by
  cases ts with
  | nil => exact absurd rfl h
  | cons t ts =>
    simp only [total_cons]
    omega

/-- A list that loses an operand loses a connective with it. -/
theorem eq_or_total_lt_of_sublist {us ts : List Formula} (h : us.Sublist ts) :
    us = ts ∨ ∀ m : Gauge, m.total us < m.total ts := by
  induction h with
  | slnil => exact .inl rfl
  | @cons us ts t _ ih =>
    right
    intro m
    have hb := m.bin_pos
    simp only [Gauge.total_cons]
    rcases ih with rfl | hl
    · omega
    · have := hl m
      omega
  | @cons_cons us ts t _ ih =>
    rcases ih with rfl | hl
    · exact .inl rfl
    · right
      intro m
      have := hl m
      simp only [Gauge.total_cons]
      omega

/-- What is left of a formula: it is alike or smaller in every gauge. -/
def Formula.Trimmed (g f : Formula) : Prop := g.alike f = true ∨ g.Smaller f

/-- What is left of the operands of a chain, in some order. -/
def TermsTrimmed (us ts : List Formula) : Prop :=
  termsAlike us ts = true ∨ ∀ m : Gauge, m.total us < m.total ts

namespace TermsTrimmed

theorem refl (ts : List Formula) : TermsTrimmed ts ts :=
  .inl ((termsAlike_iff ts ts).mpr (.refl _))

theorem total_le {us ts : List Formula} (h : TermsTrimmed us ts) (m : Gauge) :
    m.total us ≤ m.total ts := by
  rcases h with h | h
  · exact Nat.le_of_eq (m.total_eq_of_termsAlike h).symm
  · exact Nat.le_of_lt (h m)

theorem append {us ts us' ts' : List Formula} (h : TermsTrimmed us ts) (h' : TermsTrimmed us' ts') :
    TermsTrimmed (us ++ us') (ts ++ ts') := by
  rcases h with h | h
  · rcases h' with h' | h'
    · left
      rw [termsAlike_iff] at *
      simpa using h.append h'
    · right
      intro m
      have hs := m.total_eq_of_termsAlike h
      have hl := h' m
      simp only [Gauge.total_append]
      omega
  · right
    intro m
    have hl := h m
    have hs := h'.total_le m
    simp only [Gauge.total_append]
    omega

end TermsTrimmed

namespace Simplify.Compact

/-- The chain over these operands is larger than a constant in every gauge. -/
def ExceedsConstant (ts : List Formula) : Prop :=
  ∀ m : Gauge, m.const + m.bin < m.total ts

theorem ExceedsConstant.of_le {us ts : List Formula} (h : ExceedsConstant us)
    (hle : ∀ m : Gauge, m.total us ≤ m.total ts) : ExceedsConstant ts :=
  fun m => Nat.lt_of_lt_of_le (h m) (hle m)

theorem const_le_size (v : Visitor) {f : Formula} {b : Bool} (h : v.visit f = .const b)
    (m : Gauge) : m.const ≤ m.size f := by
  have hv := v.noLarger f m
  rwa [h] at hv

/-- Complementary operands are worth more than a constant, since one of them is negated. -/
theorem collapse_exceeds {op : Connective} {s t : Formula} (h : verdict op s t = .collapse) :
    ExceedsConstant [s, t] := by
  intro m
  have hc := m.const_le_bin
  have hn := m.neg_pos
  rcases negated_of_complementary (complementary_of_verdict_collapse h) with
    ⟨inner, rfl⟩ | ⟨inner, rfl⟩ <;> simp only [Gauge.total_cons, Gauge.total_nil, Gauge.size] <;>
    omega

theorem against_collapse (op : Connective) (current : Formula) (ts : List Formula)
    (h : against op current ts = .collapse) : ∃ t ∈ ts, verdict op current t = .collapse := by
  induction ts with
  | nil => cases h
  | cons t ts ih =>
    have hlater (ha : against op current ts = .collapse) :
        ∃ u ∈ t :: ts, verdict op current u = .collapse := by
      obtain ⟨u, hu, hv⟩ := ih ha
      exact ⟨u, by simp [hu], hv⟩
    rw [against] at h
    split at h
    · cases ha : against op current ts <;> rw [ha] at h <;> cases h
      exact hlater ha
    · exact hlater h
    · cases h
    · rename_i hv
      exact ⟨t, by simp, hv⟩
    · cases h
    · cases h

theorem against_dropped_ne_nil (op : Connective) (current : Formula) (ts : List Formula) :
    against op current ts ≠ .dropped [] := by
  induction ts with
  | nil => simp [against]
  | cons t ts ih =>
    rw [against]
    split
    · cases against op current ts <;> simp [Outcome.pass]
    · exact ih
    all_goals simp

theorem scan_collapse_exceeds (op : Connective) (ts : List Formula)
    (h : scan op ts = .collapse) : ExceedsConstant ts := by
  fun_induction scan op ts with
  | case1 => cases h
  | case2 current ts rest ha _ ih =>
    cases hs : scan op rest <;> rw [hs] at h <;> cases h
    refine (ih hs).of_le (fun m => ?_)
    have hb := against_bounded m op current ts
    simp only [ha, Outcome.Bounded, Gauge.total_cons] at hb ⊢
    omega
  | case3 current ts rest ha _ ih =>
    refine (ih h).of_le (fun m => ?_)
    have hb := against_bounded m op current ts
    simp only [ha, Outcome.Bounded, Gauge.total_cons] at hb ⊢
    omega
  | case4 current ts ha =>
    obtain ⟨t, ht, hv⟩ := against_collapse op current ts ha
    refine (collapse_exceeds hv).of_le (fun m => ?_)
    have hl := m.size_le_total ht
    simp only [Gauge.total_cons, Gauge.total_nil]
    omega
  | case5 => cases h
  | case6 => cases h

theorem scan_stable_nil (op : Connective) (ts : List Formula) (h : scan op ts = .stable []) :
    ts = [] := by
  fun_induction scan op ts with
  | case1 => rfl
  | case2 current ts rest _ _ _ =>
    cases hs : scan op rest <;> rw [hs] at h <;> cases h
  | case3 current ts rest ha _ ih =>
    rw [ih h] at ha
    exact absurd ha (against_dropped_ne_nil op current ts)
  | case4 => cases h
  | case5 => cases h
  | case6 => cases h

/-- An operand that brings nothing into a chain, or decides it, was simplified to a constant. -/
theorem splice_constant {op : Connective} {f : Formula} (h : (splice op f).getD [] = []) :
    ∃ b, f = .const b := by
  rw [splice] at h
  by_cases ha : f = .const op.absorbing
  · exact ⟨_, ha⟩
  · rw [if_neg ha] at h
    by_cases hn : f = .const op.neutral
    · exact ⟨_, hn⟩
    · rw [if_neg hn] at h
      exact absurd h (terms_ne_nil op f)

/-- If nothing is left of a chain, then an operand of it was simplified to a constant. -/
theorem gather_constant (v : Visitor) (op : Connective) (ts : List Formula) (hts : ts ≠ [])
    (h : (gather v op ts).getD [] = []) : ∃ t ∈ ts, ∃ b, v.visit t = .const b := by
  induction ts with
  | nil => exact absurd rfl hts
  | cons t ts ih =>
    by_cases hs : (splice op (v.visit t)).getD [] = []
    · exact ⟨t, by simp, splice_constant hs⟩
    · obtain ⟨us, hu⟩ : ∃ us, splice op (v.visit t) = some us := by
        cases ht : splice op (v.visit t) with
        | none => simp [ht] at hs
        | some us => exact ⟨us, rfl⟩
      rw [hu, Option.getD_some] at hs
      simp only [gather, hu] at h
      -- the first operand stays, so it is a later one that decides the chain
      cases hg : gather v op ts with
      | some rest => simp [hg, hs] at h
      | none =>
        have hne : ts ≠ [] := by
          rintro rfl
          cases hg
        obtain ⟨u, hm, hb⟩ := ih hne (by rw [hg]; rfl)
        exact ⟨u, by simp [hm], hb⟩

theorem gather_exceeds (v : Visitor) (op : Connective) (ts : List Formula) (hts : 2 ≤ ts.length)
    (h : (gather v op ts).getD [] = []) : ExceedsConstant ts := by
  have hne : ts ≠ [] := List.ne_nil_of_length_pos (by omega)
  obtain ⟨t, ht, b, hb⟩ := gather_constant v op ts hne h
  intro m
  have hc := const_le_size v hb m
  have hp := m.bin_pos
  -- the connective to another operand makes the difference
  obtain ⟨before, after, rfl⟩ := List.append_of_mem ht
  have hother : m.bin ≤ m.total (before ++ after) := by
    apply m.bin_le_total
    intro hn
    simp only [List.append_eq_nil_iff] at hn
    simp [hn] at hts
  simp only [Gauge.total_append, Gauge.total_cons] at hother ⊢
  omega

theorem settle_exceeds (v : Visitor) (op : Connective) (ts : List Formula) (hts : ts ≠ [])
    (h : (settle v op ts).getD [] = []) : ExceedsConstant ts := by
  have hreplaced {ts before after : List Formula} {f : Formula} {b : Bool}
      (hs : scan op ts = .replace before f after) (hb : v.visit f = .const b) :
      ExceedsConstant ts := by
    intro m
    have hbound := scan_bounded m op ts
    have hc := const_le_size v hb m
    simp only [hs, Event.Bounded] at hbound
    omega
  fun_induction settle v op ts with
  | case1 ts us scanned =>
    rw [Option.getD_some] at h
    rw [h] at scanned
    exact absurd (scan_stable_nil op ts scanned) hts
  | case2 ts scanned => exact scan_collapse_exceeds op ts scanned
  | case3 ts before f after scanned spliced =>
    have hs : (splice op (v.visit f)).getD [] = [] := by rw [spliced]; rfl
    obtain ⟨b, hb⟩ := splice_constant hs
    exact hreplaced scanned hb
  | case4 ts before f after scanned us spliced _ ih =>
    by_cases hn : before ++ us ++ after = []
    · have hu : us = [] := by
        simp only [List.append_eq_nil_iff] at hn
        exact hn.1.2
      have hs : (splice op (v.visit f)).getD [] = [] := by rw [spliced, hu]; rfl
      obtain ⟨b, hb⟩ := splice_constant hs
      exact hreplaced scanned hb
    · exact (ih hn h).of_le (fun m => Nat.le_of_lt (total_replaced_lt v scanned spliced m))

/-- Without a replacement the scan only leaves operands out. -/
theorem settle_trimmed (v : Visitor) (op : Connective) (ts us : List Formula)
    (h : settle v op ts = some us) : us = ts ∨ ∀ m : Gauge, m.total us < m.total ts := by
  rw [settle_eq] at h
  split at h
  · rename_i ws scanned
    cases h
    have hs := scan_untouched op ts
    rw [scanned] at hs
    exact eq_or_total_lt_of_sublist hs
  · cases h
  · rename_i before f after scanned
    split at h
    · cases h
    · rename_i ws spliced
      right
      intro m
      exact Nat.lt_of_le_of_lt (total_settle v h m) (total_replaced_lt v scanned spliced m)

theorem splice_trimmed {op : Connective} {f g : Formula} {us : List Formula} (h : g.Trimmed f)
    (hc : f.connective? ≠ some op) (hs : splice op g = some us) : TermsTrimmed us [f] := by
  rw [splice] at hs
  by_cases ha : g = .const op.absorbing
  · rw [if_pos ha] at hs
    cases hs
  · rw [if_neg ha] at hs
    by_cases hn : g = .const op.neutral
    · rw [if_pos hn] at hs
      cases hs
      right
      intro m
      have hb := m.bin_pos
      simp only [Gauge.total_cons, Gauge.total_nil]
      omega
    · rw [if_neg hn] at hs
      cases hs
      rcases h with h | h
      · -- alike formulas have the same connective, so there is still one operand
        have hu := (alike_iff_unordered g f).mp h
        have hr := ((unordered_eq_iff g f).mp hu).root.2.2.1
        left
        rw [terms_of_connective_ne (hr ▸ hc), termsAlike_iff]
        simp [hu]
      · right
        intro m
        have hl := h m
        simp only [m.total_terms, Gauge.total_cons, Gauge.total_nil]
        omega

theorem gather_trimmed (v : Visitor) (op : Connective) (ts us : List Formula)
    (hv : ∀ t ∈ ts, (v.visit t).Trimmed t) (hc : ∀ t ∈ ts, t.connective? ≠ some op)
    (h : gather v op ts = some us) : TermsTrimmed us ts := by
  induction ts generalizing us with
  | nil =>
    cases h
    exact .refl []
  | cons t ts ih =>
    rw [List.forall_mem_cons] at hv hc
    rw [gather] at h
    split at h
    · cases h
    · rename_i first hs
      obtain ⟨rest, hg, rfl⟩ := Option.map_eq_some_iff.mp h
      exact (splice_trimmed hv.1 hc.1 hs).append (ih rest hv.2 hc.2 hg)

theorem settled_exceeds (v : Visitor) (op : Connective) (ts : List Formula) (hts : 2 ≤ ts.length)
    (h : ((gather v op ts).bind (settle v op)).getD [] = []) : ExceedsConstant ts := by
  by_cases hg : (gather v op ts).getD [] = []
  · exact gather_exceeds v op ts hts hg
  · cases hu : gather v op ts with
    | none => simp [hu] at hg
    | some us =>
      rw [hu] at h hg
      exact (settle_exceeds v op us hg h).of_le (total_gather v hu)

theorem settled_trimmed (v : Visitor) (op : Connective) (ts us : List Formula)
    (hv : ∀ t ∈ ts, (v.visit t).Trimmed t) (hc : ∀ t ∈ ts, t.connective? ≠ some op)
    (h : (gather v op ts).bind (settle v op) = some us) : TermsTrimmed us ts := by
  obtain ⟨gathered, hg, hs⟩ := Option.bind_eq_some_iff.mp h
  have ht := gather_trimmed v op ts gathered hv hc hg
  rcases settle_trimmed v op gathered us hs with rfl | hl
  · exact ht
  · exact .inr (fun m => Nat.lt_of_lt_of_le (hl m) (ht.total_le m))

theorem chain_trimmed (v : Visitor) (op : Connective) (ts : List Formula) (hts : 2 ≤ ts.length)
    (hv : ∀ t ∈ ts, (v.visit t).Trimmed t) (hc : ∀ t ∈ ts, t.connective? ≠ some op) :
    (chain v op ts).alike (op.join ts) = true ∨
      ∀ m : Gauge, m.size (chain v op ts) + m.bin < m.total ts := by
  have hexceeds := settled_exceeds v op ts hts
  rw [chain]
  split
  · rename_i hn
    rw [hn] at hexceeds
    exact .inr (hexceeds rfl)
  · rename_i us hu
    rw [hu] at hexceeds
    have ht := settled_trimmed v op ts us hv hc hu
    split
    · rename_i f hf
      right
      intro m
      have hsize := factor_size m hf
      have hvisit := v.noLarger f m
      have hle := ht.total_le m
      omega
    · cases hj : op.join? us with
      | none =>
        rw [Connective.join, hj]
        exact .inr (hexceeds ((op.join?_eq_none us).mp hj))
      | some f =>
        refine ht.imp (alike_join op) (fun hl m => ?_)
        have hsize := m.size_join? hj
        have hm := hl m
        rw [op.join_eq_of_some hj]
        omega

theorem foldedNeg_trimmed {f g : Formula} (h : g.Trimmed f) : g.foldedNeg.Trimmed (.neg f) := by
  rcases h with h | h
  · rcases foldedNeg_within g with hf | hf
    · exact .inl (by rwa [hf, alike_neg])
    · right
      intro m
      have hm := hf m
      simpa only [Gauge.size, m.size_eq_of_alike h] using hm
  · right
    intro m
    have hf := (foldedNeg_within g).noLarger m
    have hm := h m
    simp only [Gauge.size] at hf ⊢
    omega

/-- Compacting rearranges a formula or makes it smaller in every gauge. -/
theorem run_trimmed (f : Formula) : (run f).Trimmed f := by
  induction f using chain_induction with
  | const b => exact .inl (by simp)
  | var name => exact .inl (by simp)
  | neg inner ih =>
    rw [run_neg]
    exact foldedNeg_trimmed ih
  | chain op left right ih =>
    rw [run_bin]
    have ht := chain_trimmed compactor op ((bin op left right).terms op)
      (two_le_length_terms op left right) ih (fun t ht => connective_of_mem_terms ht)
    refine ht.imp (fun ha => ?_) (fun hl m => ?_)
    · rw [alike_iff_unordered] at ha ⊢
      exact ha.trans ((alike_iff_unordered _ _).mp (alike_join_terms op _))
    · have hm := hl m
      rw [m.total_terms] at hm
      omega

end Simplify.Compact

/-- The gauge that charges one variable differently. -/
def Gauge.charging (m : Gauge) (name : String) (cost : Nat) : Gauge :=
  { m with var := Function.update m.var name cost }

theorem Gauge.size_unmasked (m : Gauge) (f part : Formula) (name : String) :
    m.size (f.substitute [.var name] part) = (m.charging name (m.size part)).size f := by
  induction f with
  | const => rfl
  | var other =>
    by_cases hn : other = name
    · rw [hn, substitute, if_pos (by simp)]
      exact (Function.update_self name (m.size part) m.var).symm
    · rw [substitute, if_neg (by simp [hn])]
      exact (Function.update_of_ne hn (m.size part) m.var).symm
  | neg inner ih =>
    rw [substitute, if_neg (by simp), size, size, ih]
    rfl
  | bin op left right ihl ihr =>
    rw [substitute, if_neg (by simp), size, size, ihl, ihr]
    rfl

/-- A mask that is charged as much as each of the masked parts keeps the size. -/
theorem Gauge.size_masked (m : Gauge) (f : Formula) (targets : List Formula) (name : String)
    (hn : name ∉ f.occurrences) (cost : Nat) (ht : ∀ t ∈ targets, m.size t = cost) :
    (m.charging name cost).size (f.substitute targets (.var name)) = m.size f := by
  have hmask (g : Formula) (hg : g ∈ targets) :
      (m.charging name cost).size (.var name) = m.size g := by
    rw [ht g hg]
    exact Function.update_self name cost m.var
  induction f with
  | const value =>
    rw [substitute]
    split
    · exact hmask _ ‹_›
    · rfl
  | var other =>
    rw [substitute]
    split
    · exact hmask _ ‹_›
    · have hne : other ≠ name := by simpa [eq_comm] using hn
      exact Function.update_of_ne hne cost m.var
  | neg inner ih =>
    rw [substitute]
    split
    · exact hmask _ ‹_›
    · rw [size, size, ih hn]
      rfl
  | bin op left right ihl ihr =>
    rw [mem_occurrences_bin, not_or] at hn
    rw [substitute]
    split
    · exact hmask _ ‹_›
    · rw [size, size, ihl hn.1, ihr hn.2]
      rfl

theorem Group.Uniform.size_eq {g : Group} (h : g.Uniform) (m : Gauge) :
    ∀ t ∈ g.members, m.size t = m.size g.first := by
  intro t ht
  rcases List.mem_cons.mp ht with rfl | ht
  · rfl
  · exact (m.size_eq_of_alike (h t ht)).symm

namespace Simplify.Repeats

theorem attempt_smaller (name : String) (f g : Formula) (group : Group) (hu : group.Uniform)
    (hn : name ∉ f.occurrences) (h : attempt (.var name) f group = some g) : g.Smaller f := by
  have ht := Compact.run_trimmed (f.substitute group.members (.var name))
  simp only [attempt] at h
  split at h
  · cases h
  · rename_i hchanged
    cases h
    rw [alike_comm] at hchanged
    intro m
    have hless := ht.resolve_left hchanged (m.charging name (m.size group.first))
    rwa [m.size_masked f group.members name hn _ (hu.size_eq m), ← m.size_unmasked] at hless

theorem attempts_shrink (name : String) (f : Formula) (hn : name ∉ f.occurrences)
    (groups : List Group) (hu : ∀ g ∈ groups, g.Uniform) (changed : Option Formula)
    (hc : ∀ g, changed = some g → Keeps f g ∧ g.Smaller f) :
    ∀ g, groups.foldl (fun changed group =>
      (attempt (.var name) (changed.getD f) group).or changed) changed = some g → g.Smaller f := by
  induction groups generalizing changed with
  | nil => exact fun g hg => (hc g hg).2
  | cons group groups ih =>
    rw [List.forall_mem_cons] at hu
    rw [List.foldl_cons]
    apply ih hu.2
    cases ha : attempt (.var name) (changed.getD f) group with
    | none => exact hc
    | some g =>
      rintro _ ⟨⟩
      cases changed with
      | none =>
        exact ⟨attempt_keeps name f g group hu.1 hn ha, attempt_smaller name f g group hu.1 hn ha⟩
      | some current =>
        obtain ⟨hk, hs⟩ := hc current rfl
        have hn' : name ∉ current.occurrences := fun h => hn (hk.names name h)
        exact ⟨hk.trans (attempt_keeps name current g group hu.1 hn' ha),
          (attempt_smaller name current g group hu.1 hn' ha).trans_noLarger hs.noLarger⟩

theorem pass_smaller (leafKey : Formula → UInt64) (name : String) (f g : Formula)
    (hn : name ∉ f.occurrences) (h : pass leafKey (.var name) f = some g) : g.Smaller f :=
  attempts_shrink name f hn _ (repeated_uniform leafKey f) none (by simp) g h

theorem passes_within (leafKey : Formula → UInt64) (name : String) (total left : Nat) (f : Formula)
    (hn : name ∉ f.occurrences) : (passes leafKey (.var name) total left f).value.Within f := by
  induction left generalizing f with
  | zero => exact .refl f
  | succ left ih =>
    rw [passes]
    split
    · exact .refl f
    · rename_i g hg
      have hk := pass_keeps leafKey name f g hn hg
      have hs := pass_smaller leafKey name f g hn hg
      exact .inr ((ih g (fun h => hn (hk.names name h))).trans_smaller hs)

theorem runWith_within (leafKey : Formula → UInt64) (f : Formula) :
    (runWith leafKey f).value.Within f :=
  passes_within leafKey (maskName f) limit limit f (maskName_fresh f)

end Simplify.Repeats

namespace Simplify

theorem Prune.run_within (f : Formula) : (Prune.run f).Within f := by
  fun_induction Prune.run f with
  | case1 f => exact .refl f
  | case2 f _ ih => exact ih.trans (visit_within f)

theorem text_shorter_of_within {f g : Formula} (h : g.Within f) :
    g = f ∨ g.text.utf8ByteSize < f.text.utf8ByteSize :=
  h.imp_right Smaller.text

/-- Pruning and masking return the formula itself or one with a shorter text, whatever the keys of
leaves are. Compacting returns a formula with a shorter text or one that is alike, and then its
text has the same length. -/
theorem rewriting_only_shrinks (f : Formula) :
    (Prune.run f = f ∨ (Prune.run f).text.utf8ByteSize < f.text.utf8ByteSize) ∧
    (∀ leafKey, (Repeats.runWith leafKey f).value = f ∨
      (Repeats.runWith leafKey f).value.text.utf8ByteSize < f.text.utf8ByteSize) ∧
    ((Compact.run f).alike f = true ∧
        (Compact.run f).text.utf8ByteSize = f.text.utf8ByteSize ∨
      (Compact.run f).text.utf8ByteSize < f.text.utf8ByteSize) := by
  refine ⟨text_shorter_of_within (Prune.run_within f),
    fun leafKey => text_shorter_of_within (Repeats.runWith_within leafKey f), ?_⟩
  rw [utf8ByteSize_text, utf8ByteSize_text]
  refine (Compact.run_trimmed f).imp (fun ha => ⟨ha, ?_⟩) (fun hs => hs Gauge.bytes)
  exact Gauge.bytes.size_eq_of_alike ha

end Simplify

end Sentential
