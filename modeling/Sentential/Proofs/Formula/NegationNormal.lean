import Mathlib.Data.List.Basic
import Sentential.Formula.Groups
import Sentential.Formula.Text
import Sentential.Proofs.Formula.Negations

/-!
# Negation normal form

A formula is in negation normal form when its negations stand on leaves. Pushing
negations down reaches that form from every formula and leaves it alone once it
is reached. Pulling them out again undoes the form, but from a formula in that form
it takes out every negation that a chain can give away: a negation that was pulled
has no further negation under it, so the dual chain that arises there has nothing
to give, wherever it ends up.

Neither direction moves a variable. A formula therefore evaluates as before also
where variables have no value, and the same variable is reported.

Pushing is defined by the number of negations passed on the way down. De Morgan's
laws, taken one step at a time, rebuild the operands with their negations instead;
the steps leave no choice, so both give the same formula.
-/

set_option autoImplicit false

namespace Sentential

theorem Gauge.total_map_le (m : Gauge) (g h : Formula → Formula) (ts : List Formula)
    (hle : ∀ t ∈ ts, m.size (g t) ≤ m.size (h t)) : m.total (ts.map g) ≤ m.total (ts.map h) := by
  induction ts with
  | nil => exact Nat.le_refl _
  | cons t ts ih =>
    rw [List.forall_mem_cons] at hle
    have hrest := ih hle.2
    simp only [List.map_cons, total_cons]
    omega

namespace Formula

/-- Every negation stands in front of a formula without inner nodes, so of a constant or a
variable. -/
def NegationNormal (f : Formula) : Prop :=
  ∀ inner, neg inner ∈ f.innerNodes → inner.innerNodes = []

theorem negationNormal_bin (op : Connective) (left right : Formula) :
    (bin op left right).NegationNormal ↔ left.NegationNormal ∧ right.NegationNormal := by
  simp only [NegationNormal, innerNodes_bin, List.mem_append, List.mem_singleton, reduceCtorEq,
    or_false, or_imp, forall_and]

theorem NegationNormal.terms {f : Formula} (h : f.NegationNormal) {op : Connective} {t : Formula}
    (ht : t ∈ f.terms op) : t.NegationNormal := by
  induction f with
  | const => exact List.mem_singleton.mp ht ▸ h
  | var => exact List.mem_singleton.mp ht ▸ h
  | neg inner => exact List.mem_singleton.mp ht ▸ h
  | bin p left right ihl ihr =>
    by_cases hp : p = op
    · subst hp
      rw [negationNormal_bin] at h
      rw [terms_bin_same, List.mem_append] at ht
      exact ht.elim (ihl h.1) (ihr h.2)
    · rw [terms_bin_other left right hp, List.mem_singleton] at ht
      exact ht ▸ h

theorem pushUnder_normal (positive : Bool) (f : Formula) :
    (f.pushUnder positive).NegationNormal := by
  induction f generalizing positive with
  | const => cases positive <;> simp [pushUnder, NegationNormal]
  | var => cases positive <;> simp [pushUnder, NegationNormal]
  | neg inner ih => exact ih (!positive)
  | bin op left right ihl ihr =>
    rw [pushUnder, negationNormal_bin]
    exact ⟨ihl positive, ihr positive⟩

/-- A negation in front of a leaf has nowhere to go. -/
theorem pushUnder_leaf (f : Formula) (h : f.innerNodes = []) : f.pushUnder false = neg f := by
  cases f with
  | const => rfl
  | var => rfl
  | neg inner => simp at h
  | bin op left right => simp at h

theorem NegationNormal.pushNegations {f : Formula} (h : f.NegationNormal) :
    f.pushNegations = f := by
  induction f with
  | const => rfl
  | var => rfl
  | neg inner ih => exact pushUnder_leaf inner (h inner (by simp))
  | bin op left right ihl ihr =>
    rw [negationNormal_bin] at h
    have hl : left.pushUnder true = left := ihl h.1
    have hr : right.pushUnder true = right := ihr h.2
    rw [Formula.pushNegations, pushUnder, hl, hr]
    rfl

theorem pushUnder_opposite (positive : Bool) (f : Formula) :
    f.opposite.pushUnder positive = f.pushUnder (!positive) := by
  cases f with
  | neg inner => rw [opposite, pushUnder, Bool.not_not]
  | const => rfl
  | var => rfl
  | bin => rfl

/-- De Morgan's law as one step: the operands are replaced by their opposites, so that no second
negation comes in front of a first. -/
theorem pushNegations_neg_bin (op : Connective) (left right : Formula) :
    (neg (bin op left right)).pushNegations =
      bin op.dual left.opposite.pushNegations right.opposite.pushNegations := by
  simp only [Formula.pushNegations, pushUnder_opposite]
  rfl

/-- Negations move down by single steps: a second negation takes the first one away, a negated
connective becomes its dual over the operands' opposites, and a leaf keeps its negation. -/
structure MovesInwards (move : Formula → Formula) : Prop where
  leaf (f : Formula) : f.innerNodes = [] → move f = f
  bin (op : Connective) (left right : Formula) :
    move (bin op left right) = .bin op (move left) (move right)
  neg_leaf (f : Formula) : f.innerNodes = [] → move (neg f) = neg f
  neg_neg (f : Formula) : move (neg (neg f)) = move f
  neg_bin (op : Connective) (left right : Formula) :
    move (neg (.bin op left right)) = .bin op.dual (move left.opposite) (move right.opposite)

theorem movesInwards_pushNegations : MovesInwards pushNegations where
  leaf f h := NegationNormal.pushNegations (fun inner hi => by simp [h] at hi)
  bin _ _ _ := rfl
  neg_leaf := pushUnder_leaf
  neg_neg _ := rfl
  neg_bin := pushNegations_neg_bin

theorem MovesInwards.opposite {move : Formula → Formula} (h : MovesInwards move) (f : Formula) :
    move f.opposite = move (neg f) := by
  cases f with
  | neg inner => exact (h.neg_neg inner).symm
  | const => rfl
  | var => rfl
  | bin => rfl

/-- The steps determine the result. An opposite is no part of the formula it is taken of, so the
induction carries a formula together with its negation. -/
theorem MovesInwards.eq_pushUnder {move : Formula → Formula} (h : MovesInwards move)
    (f : Formula) : move f = f.pushUnder true ∧ move (neg f) = f.pushUnder false := by
  induction f with
  | const value => exact ⟨h.leaf _ rfl, h.neg_leaf _ rfl⟩
  | var name => exact ⟨h.leaf _ rfl, h.neg_leaf _ rfl⟩
  | neg inner ih => exact ⟨ih.2, (h.neg_neg inner).trans ih.1⟩
  | bin op left right ihl ihr =>
    constructor
    · rw [h.bin, ihl.1, ihr.1]
      rfl
    · rw [h.neg_bin, h.opposite, h.opposite, ihl.2, ihr.2]
      rfl

/-- Pushing negations down is the one function that moves them by those steps. It keeps the value
under every environment, or the variable that is reported. It ends in negation normal form, and a
formula stays as it is exactly if it is in that form already. -/
theorem pushing_ends_in_negation_normal_form (f : Formula) :
    (∀ move : Formula → Formula, MovesInwards move ↔ move = pushNegations) ∧
    (∀ env, f.pushNegations.eval env = f.eval env) ∧
    f.pushNegations.NegationNormal ∧
    (f.pushNegations = f ↔ f.NegationNormal) := by
  have hn : f.pushNegations.NegationNormal := pushUnder_normal true f
  refine ⟨fun move => ⟨?_, ?_⟩, ?_, hn, ?_⟩
  · exact fun h => funext fun g => (h.eq_pushUnder g).1
  · rintro rfl
    exact movesInwards_pushNegations
  · exact eval_congr (occurrences_pushUnder true f) (pushNegations_keeps f).holds
  · constructor
    · intro h
      rwa [h] at hn
    · exact NegationNormal.pushNegations

theorem occurrences_joinNegated (op : Connective) (ts : List Formula) :
    (joinNegated op ts).occurrences = ts.flatMap occurrences := by
  rw [joinNegated]
  split
  · rename_i inners h
    rw [mapM_negated? ts inners h, occurrences_neg, occurrences_join, List.flatMap_map]
    rfl
  · exact occurrences_join op ts

theorem occurrences_pullNegations (f : Formula) :
    f.pullNegations.occurrences = f.occurrences := by
  induction f using chain_induction with
  | const => rw [pullNegations_const]
  | var => rw [pullNegations_var]
  | neg inner ih => rwa [pullNegations_neg]
  | chain op left right ih =>
    have hterms : ((bin op left right).terms op).flatMap (fun t => t.pullNegations.occurrences) =
        ((bin op left right).terms op).flatMap occurrences :=
      List.flatMap_congr ih
    rw [pullNegations_bin, occurrences_joinNegated, List.flatMap_map, hterms, occurrences_terms]

theorem size_joinNegated_le (m : Gauge) (op : Connective) (ts : List Formula) (hts : ts ≠ []) :
    m.size (joinNegated op ts) + m.bin ≤ m.total ts := by
  have hjoin (p : Connective) (us : List Formula) (hus : us ≠ []) :
      m.size (p.join us) + m.bin = m.total us := by
    cases us with
    | nil => exact absurd rfl hus
    | cons first rest => exact m.size_join? rfl
  rw [joinNegated]
  split
  · rename_i inners h
    have hn := mapM_negated? ts inners h
    subst hn
    cases inners with
    | nil => exact absurd rfl hts
    | cons first rest =>
      -- one negation is left of as many as there are operands
      have hrest := m.total_map_le id neg rest (fun t _ => Nat.le_add_left (m.size t) m.neg)
      have hsize := hjoin op.dual (first :: rest) (by simp)
      simp only [List.map_cons, List.map_id, Gauge.total_cons, Gauge.size] at hrest hsize ⊢
      omega
  · exact Nat.le_of_eq (hjoin op ts hts)

theorem pullNegations_noLarger (f : Formula) : f.pullNegations.NoLarger f := by
  intro m
  induction f using chain_induction with
  | const => simp
  | var => simp
  | neg inner ih =>
    rw [pullNegations_neg]
    exact Nat.add_le_add_left ih m.neg
  | chain op left right ih =>
    have hterms := m.total_map_le pullNegations id ((bin op left right).terms op) ih
    have hjoin := size_joinNegated_le m op (((bin op left right).terms op).map pullNegations)
      (mt List.map_eq_nil_iff.mp (terms_ne_nil op _))
    rw [List.map_id, m.total_terms] at hterms
    rw [pullNegations_bin]
    omega

/-- Pulling keeps the connective of a formula or puts a negation in front of it. -/
theorem connective?_pullNegations (f : Formula) (p : Connective)
    (h : f.pullNegations.connective? = some p) : f.connective? = some p := by
  cases f with
  | const => rwa [pullNegations_const] at h
  | var => rwa [pullNegations_var] at h
  | neg inner =>
    rw [pullNegations_neg] at h
    cases h
  | bin op left right =>
    rw [pullNegations_bin, joinNegated] at h
    split at h
    · cases h
    · obtain ⟨l, r, hj⟩ := join_shape op (((bin op left right).terms op).map pullNegations)
        (by simpa using two_le_length_terms op left right)
      rwa [hj] at h

def HasNegation (f : Formula) : Prop :=
  ∃ inner, neg inner ∈ f.innerNodes

theorem hasNegation_additive (op : Connective) : Additive op HasNegation := by
  intro left right
  simp only [HasNegation, innerNodes_bin, List.mem_append, List.mem_singleton, reduceCtorEq,
    or_false, exists_or]

/-- No maximal chain has negated operands only. -/
def Mixed (f : Formula) : Prop :=
  ∀ op left right, bin op left right ∈ f.chains →
    ∃ t ∈ (bin op left right).terms op, t.negated? = none

theorem mixed_leaf (f : Formula) (h : f.innerNodes = []) : f.Mixed := by
  cases f with
  | const => simp [Mixed, chains, chainsUnder]
  | var => simp [Mixed, chains, chainsUnder]
  | neg inner => simp at h
  | bin op left right => simp at h

theorem mixed_neg (f : Formula) : (neg f).Mixed ↔ f.Mixed := .rfl

theorem mixed_bin (op : Connective) (left right : Formula)
    (hself : ∃ t ∈ (bin op left right).terms op, t.negated? = none)
    (hterms : ∀ t ∈ (bin op left right).terms op, t.Mixed) : (bin op left right).Mixed := by
  intro p l r hc
  rcases (mem_chains_bin op left right _).mp hc with he | ⟨t, ht, hc⟩
  · cases he
    exact hself
  · exact hterms t ht p l r hc

theorem negated?_of_not_hasNegation {f : Formula} (h : ¬f.HasNegation) : f.negated? = none := by
  cases f with
  | neg inner => exact absurd ⟨inner, by simp⟩ h
  | const => rfl
  | var => rfl
  | bin => rfl

theorem mixed_of_not_hasNegation (f : Formula) (h : ¬f.HasNegation) : f.Mixed := by
  induction f using chain_induction with
  | const value => exact mixed_leaf _ rfl
  | var name => exact mixed_leaf _ rfl
  | neg inner ih => exact absurd ⟨inner, by simp⟩ h
  | chain op left right ih =>
    have hterms : ∀ t ∈ (bin op left right).terms op, ¬t.HasNegation :=
      fun t ht hn => h (((hasNegation_additive op).terms _).mp ⟨t, ht, hn⟩)
    obtain ⟨t, ht⟩ := List.exists_mem_of_ne_nil _ (terms_ne_nil op (bin op left right))
    exact mixed_bin op left right ⟨t, ht, negated?_of_not_hasNegation (hterms t ht)⟩
      (fun u hu => ih u hu (hterms u hu))

theorem mapM_negated?_eq_none (ts : List Formula) (h : ts.mapM negated? = none) :
    ∃ t ∈ ts, t.negated? = none := by
  induction ts with
  | nil => cases h
  | cons t ts ih =>
    rw [List.mapM_cons] at h
    cases ht : t.negated? with
    | none => exact ⟨t, by simp, ht⟩
    | some inner =>
      cases hts : ts.mapM negated? with
      | none =>
        obtain ⟨u, hu, hn⟩ := ih hts
        exact ⟨u, by simp [hu], hn⟩
      | some inners => simp [ht, hts] at h

/-- What pulling makes of a formula in negation normal form: its chains are mixed, and if it has a
negation in front, there is none behind that. -/
def Pulled (f : Formula) : Prop :=
  f.Mixed ∧ ∀ inner ∈ f.negated?, ¬inner.HasNegation

theorem joinNegated_pulled (op : Connective) (ts : List Formula) (hts : 2 ≤ ts.length)
    (hc : ∀ t ∈ ts, t.connective? ≠ some op) (hp : ∀ t ∈ ts, t.Pulled) :
    (joinNegated op ts).Pulled := by
  rw [joinNegated]
  split
  · rename_i inners h
    have hn := mapM_negated? ts inners h
    subst hn
    have hplain : ¬(op.dual.join inners).HasNegation := by
      rw [(hasNegation_additive op.dual).join (by simp [HasNegation])]
      rintro ⟨inner, hi, hneg⟩
      exact (hp (neg inner) (List.mem_map_of_mem hi)).2 inner rfl hneg
    refine ⟨(mixed_neg _).mpr (mixed_of_not_hasNegation _ hplain), ?_⟩
    rintro _ ⟨⟩
    exact hplain
  · rename_i h
    obtain ⟨left, right, hj⟩ := join_shape op ts hts
    have hterms := terms_join op ts (List.ne_nil_of_length_pos (by omega)) hc
    rw [hj] at hterms ⊢
    refine ⟨mixed_bin op left right ?_ ?_, ?_⟩
    · rw [hterms]
      exact mapM_negated?_eq_none ts h
    · rw [hterms]
      exact fun t ht => (hp t ht).1
    · intro inner hi
      cases hi

theorem NegationNormal.pulled {f : Formula} (h : f.NegationNormal) : f.pullNegations.Pulled := by
  induction f using chain_induction with
  | const value =>
    rw [pullNegations_const]
    exact ⟨mixed_leaf _ rfl, nofun⟩
  | var name =>
    rw [pullNegations_var]
    exact ⟨mixed_leaf _ rfl, nofun⟩
  | neg inner ih =>
    have hleaf := h inner (by simp)
    have hpulled : inner.pullNegations = inner := by
      cases inner with
      | const => exact pullNegations_const _
      | var => exact pullNegations_var _
      | neg | bin => simp at hleaf
    rw [pullNegations_neg, hpulled]
    refine ⟨(mixed_neg _).mpr (mixed_leaf inner hleaf), ?_⟩
    rintro _ ⟨⟩
    simp [HasNegation, hleaf]
  | chain op left right ih =>
    rw [pullNegations_bin]
    apply joinNegated_pulled
    · simpa using two_le_length_terms op left right
    · rw [List.forall_mem_map]
      exact fun t ht hc => connective_of_mem_terms ht (connective?_pullNegations t op hc)
    · rw [List.forall_mem_map]
      exact fun t ht => ih t ht (h.terms ht)

/-- Pulling negations out keeps the value under every environment, or the variable that is
reported, and the text does not become longer. From negation normal form one pass is enough: in its
result no maximal chain has negated operands only. -/
theorem pulling_leaves_no_negated_chain (f : Formula) :
    (∀ env, f.pullNegations.eval env = f.eval env) ∧
    f.pullNegations.text.utf8ByteSize ≤ f.text.utf8ByteSize ∧
    (f.NegationNormal → ∀ op left right, bin op left right ∈ f.pullNegations.chains →
      ∃ t ∈ (bin op left right).terms op, t.negated? = none) := by
  refine ⟨?_, ?_, ?_⟩
  · exact eval_congr (occurrences_pullNegations f) (pullNegations_keeps f).holds
  · rw [utf8ByteSize_text, utf8ByteSize_text]
    exact pullNegations_noLarger f Gauge.bytes
  · intro h
    exact h.pulled.1

/-- The inner conjunction gives its negations away, the disjunction then has nothing but negated
operands and gives away all of them, and the conjunction around it has another operand. -/
theorem pulling_leaves_no_negated_chain_nested :
    (and (or (neg (var "a")) (and (neg (var "b")) (neg (var "c")))) (var "d")).pullNegations =
        and (neg (and (var "a") (or (var "b") (var "c")))) (var "d") ∧
      ∃ t ∈ (and (neg (and (var "a") (or (var "b") (var "c")))) (var "d")).terms .and,
        t.negated? = none := by
  have hpulled : (and (or (neg (var "a")) (and (neg (var "b")) (neg (var "c"))))
      (var "d")).pullNegations =
        and (neg (and (var "a") (or (var "b") (var "c")))) (var "d") := by
    decide +kernel
  have hnormal : (and (or (neg (var "a")) (and (neg (var "b")) (neg (var "c"))))
      (var "d")).NegationNormal := by
    simp [NegationNormal]
  have hmixed := (pulling_leaves_no_negated_chain _).2.2 hnormal
  rw [hpulled] at hmixed
  exact ⟨hpulled, hmixed _ _ _ (by decide)⟩

end Formula

end Sentential
