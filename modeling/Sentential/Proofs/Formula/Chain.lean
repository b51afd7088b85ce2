import Sentential.Formula.Gauge
import Sentential.Proofs.Formula.Meaning

/-!
# Truth and names of chains

A chain has the absorbing value of its connective exactly if one of its
operands has it, and it mentions the names that its operands mention. Both are
conditions that some operand meets, so order, nesting and repetition of the
operands do not matter to them, and they determine what a chain means.
-/

set_option autoImplicit false

namespace Sentential

namespace Connective

@[simp] theorem dual_absorbing (op : Connective) : op.dual.absorbing = op.neutral := by
  cases op <;> rfl

@[simp] theorem neutral_ne_absorbing (op : Connective) : op.neutral ≠ op.absorbing := by
  cases op <;> decide

theorem ne_absorbing_iff (op : Connective) (b : Bool) : b ≠ op.absorbing ↔ b = op.neutral := by
  cases op <;> simp [absorbing, neutral]

theorem not_eq_absorbing_iff (op : Connective) (b : Bool) :
    (!b) = op.absorbing ↔ ¬b = op.absorbing := by
  cases op <;> cases b <;> decide

/-- A truth value is known once it is known whether it is the absorbing one. -/
theorem eq_of_absorbing_iff (op : Connective) (a b : Bool)
    (h : a = op.absorbing ↔ b = op.absorbing) : a = b := by
  cases op <;> cases a <;> cases b <;> simp_all [absorbing]

theorem apply_eq_absorbing (op : Connective) (a b : Bool) :
    op.apply a b = op.absorbing ↔ a = op.absorbing ∨ b = op.absorbing := by
  cases op <;> cases a <;> cases b <;> decide

theorem join_eq_of_some (op : Connective) {ts : List Formula} {f : Formula}
    (h : op.join? ts = some f) : op.join ts = f := by
  rw [join, h, Option.getD_some]

theorem join?_eq_none (op : Connective) (ts : List Formula) : op.join? ts = none ↔ ts = [] := by
  cases ts <;> simp [join?]

end Connective

namespace Formula

theorem holds_bin_absorbing (op : Connective) (left right : Formula) (v : Valuation) :
    (bin op left right).holds v = op.absorbing ↔
      left.holds v = op.absorbing ∨ right.holds v = op.absorbing :=
  op.apply_eq_absorbing _ _

theorem mem_occurrences_bin (op : Connective) (left right : Formula) (name : String) :
    name ∈ (bin op left right).occurrences ↔
      name ∈ left.occurrences ∨ name ∈ right.occurrences := by
  rw [occurrences_bin, List.mem_append]

theorem terms_ne_nil (op : Connective) (f : Formula) : f.terms op ≠ [] := by
  induction f with
  | const => simp
  | var => simp
  | neg => simp
  | bin p left right ihl ihr =>
    by_cases hp : p = op
    · subst hp
      simp [ihl]
    · simp [terms_bin_other left right hp]

/-- A proper chain has two operands or more. -/
theorem two_le_length_terms (op : Connective) (left right : Formula) :
    2 ≤ ((bin op left right).terms op).length := by
  have hl := List.length_pos_iff.mpr (terms_ne_nil op left)
  have hr := List.length_pos_iff.mpr (terms_ne_nil op right)
  rw [terms_bin_same, List.length_append]
  omega

theorem join_shape (op : Connective) (ts : List Formula) (h : 2 ≤ ts.length) :
    ∃ left right, op.join ts = bin op left right := by
  have hfold (rest : List Formula) (a b : Formula) :
      ∃ left right, rest.foldl (bin op) (bin op a b) = bin op left right := by
    induction rest generalizing a b with
    | nil => exact ⟨a, b, rfl⟩
    | cons t rest ih => exact ih (bin op a b) t
  match ts, h with
  | first :: second :: rest, _ => exact hfold rest first second

/-- Neither listing the operands of a chain nor nesting them again moves a variable. -/
theorem occurrences_terms (op : Connective) (f : Formula) :
    (f.terms op).flatMap occurrences = f.occurrences := by
  induction f with
  | const => rfl
  | var => rfl
  | neg inner => simp
  | bin p left right ihl ihr =>
    by_cases hp : p = op
    · subst hp
      rw [terms_bin_same, List.flatMap_append, ihl, ihr, occurrences_bin]
    · simp [terms_bin_other left right hp]

theorem occurrences_join (op : Connective) (ts : List Formula) :
    (op.join ts).occurrences = ts.flatMap occurrences := by
  have hfold (first : Formula) (rest : List Formula) : (rest.foldl (bin op) first).occurrences =
      first.occurrences ++ rest.flatMap occurrences := by
    induction rest generalizing first with
    | nil => simp
    | cons t rest ih => simp [ih]
  cases ts with
  | nil => rfl
  | cons first rest => exact hfold first rest

/-- A condition that a formula meets as soon as one of its operands under `op` does. -/
def Additive (op : Connective) (P : Formula → Prop) : Prop :=
  ∀ left right, P (bin op left right) ↔ P left ∨ P right

theorem absorbing_additive (op : Connective) (v : Valuation) :
    Additive op (fun f => f.holds v = op.absorbing) :=
  fun left right => holds_bin_absorbing op left right v

theorem mentions_additive (op : Connective) (name : String) :
    Additive op (fun f => name ∈ f.occurrences) :=
  fun left right => mem_occurrences_bin op left right name

theorem Additive.terms {op : Connective} {P : Formula → Prop} (h : Additive op P) (f : Formula) :
    (∃ t ∈ f.terms op, P t) ↔ P f := by
  induction f with
  | const => simp
  | var => simp
  | neg => simp
  | bin p left right ihl ihr =>
    by_cases hp : p = op
    · subst hp
      rw [terms_bin_same, h, ← ihl, ← ihr]
      simp only [List.mem_append, or_and_right, exists_or]
    · rw [terms_bin_other left right hp]
      simp

theorem Additive.foldl {op : Connective} {P : Formula → Prop} (h : Additive op P) (first : Formula)
    (ts : List Formula) : P (ts.foldl (bin op) first) ↔ P first ∨ ∃ t ∈ ts, P t := by
  induction ts generalizing first with
  | nil => simp
  | cons t ts ih =>
    rw [List.foldl_cons, ih, h]
    simp only [List.mem_cons, exists_eq_or_imp, or_assoc]

theorem Additive.join? {op : Connective} {P : Formula → Prop} (h : Additive op P)
    {ts : List Formula} {f : Formula} (hj : op.join? ts = some f) : P f ↔ ∃ t ∈ ts, P t := by
  cases ts with
  | nil => cases hj
  | cons first rest =>
    cases hj
    rw [h.foldl]
    simp only [List.mem_cons, exists_eq_or_imp]

theorem Additive.join {op : Connective} {P : Formula → Prop} (h : Additive op P)
    (hn : ¬P (const op.neutral)) (ts : List Formula) : P (op.join ts) ↔ ∃ t ∈ ts, P t := by
  cases ts with
  | nil =>
    show P (const op.neutral) ↔ _
    simpa using hn
  | cons first rest => exact h.join? rfl

theorem holds_join (op : Connective) (ts : List Formula) (v : Valuation) :
    (op.join ts).holds v = op.absorbing ↔ ∃ t ∈ ts, t.holds v = op.absorbing :=
  (absorbing_additive op v).join op.neutral_ne_absorbing ts

theorem holds_join_dual (op : Connective) (ts : List Formula) (v : Valuation) :
    (op.join ts).holds v = op.dual.absorbing ↔ ∀ t ∈ ts, t.holds v = op.dual.absorbing := by
  simp only [Connective.dual_absorbing, ← Connective.ne_absorbing_iff, ne_eq, holds_join,
    not_exists, not_and]

theorem mem_occurrences_join (op : Connective) (ts : List Formula) (name : String) :
    name ∈ (op.join ts).occurrences ↔ ∃ t ∈ ts, name ∈ t.occurrences := by
  rw [occurrences_join, List.mem_flatMap]

theorem holds_terms (op : Connective) (f : Formula) (v : Valuation) :
    (∃ t ∈ f.terms op, t.holds v = op.absorbing) ↔ f.holds v = op.absorbing :=
  (absorbing_additive op v).terms f

theorem mem_occurrences_terms (op : Connective) (f : Formula) (name : String) :
    (∃ t ∈ f.terms op, name ∈ t.occurrences) ↔ name ∈ f.occurrences := by
  rw [← occurrences_terms op f, List.mem_flatMap]

/-- Keeping the meaning, by the two additive conditions. -/
theorem keeps_of_absorbing (op : Connective) (f g : Formula)
    (hv : ∀ v, g.holds v = op.absorbing ↔ f.holds v = op.absorbing)
    (hn : ∀ name ∈ g.occurrences, name ∈ f.occurrences) : Keeps f g :=
  ⟨fun v => op.eq_of_absorbing_iff _ _ (hv v), hn⟩

theorem keeps_join_terms (op : Connective) (f : Formula) : Keeps f (op.join (f.terms op)) := by
  apply keeps_of_absorbing op
  · intro v
    rw [holds_join, holds_terms]
  · intro name hn
    rwa [mem_occurrences_join, mem_occurrences_terms] at hn

theorem join_append_keeps (op : Connective) {ts us ts' us' : List Formula}
    (ht : Keeps (op.join ts) (op.join ts')) (hu : Keeps (op.join us) (op.join us')) :
    Keeps (op.join (ts ++ us)) (op.join (ts' ++ us')) := by
  have hv (v : Valuation) (as bs : List Formula) : (op.join (as ++ bs)).holds v = op.absorbing ↔
      (op.join as).holds v = op.absorbing ∨ (op.join bs).holds v = op.absorbing := by
    simp only [holds_join, List.mem_append, or_and_right, exists_or]
  have hn (name : String) (as bs : List Formula) : name ∈ (op.join (as ++ bs)).occurrences ↔
      name ∈ (op.join as).occurrences ∨ name ∈ (op.join bs).occurrences := by
    simp only [mem_occurrences_join, List.mem_append, or_and_right, exists_or]
  apply keeps_of_absorbing op
  · intro v
    rw [hv, hv, ht.holds, hu.holds]
  · intro name h
    rw [hn] at h ⊢
    exact h.imp (ht.names name) (hu.names name)

theorem join_cons_keeps (op : Connective) {t t' : Formula} {ts ts' : List Formula}
    (ht : Keeps t t') (hts : Keeps (op.join ts) (op.join ts')) :
    Keeps (op.join (t :: ts)) (op.join (t' :: ts')) := by
  have hsingle : Keeps (op.join [t]) (op.join [t']) := ht
  exact join_append_keeps op hsingle hts

theorem join_cons_nested_keeps (op : Connective) (term : Formula) (ts : List Formula) :
    Keeps (op.join (term :: ts)) (.bin op term (op.join ts)) := by
  apply keeps_of_absorbing op
  · intro v
    simp only [holds_bin_absorbing, holds_join, List.mem_cons, exists_eq_or_imp]
  · intro name
    simp only [mem_occurrences_bin, mem_occurrences_join, List.mem_cons, exists_eq_or_imp]
    exact id

/-- No operand of a chain is itself a chain of the same connective. -/
theorem connective_of_mem_terms {op : Connective} {f t : Formula} (h : t ∈ f.terms op) :
    t.connective? ≠ some op := by
  induction f with
  | const => simp_all [connective?]
  | var => simp_all [connective?]
  | neg => simp_all [connective?]
  | bin p left right ihl ihr =>
    by_cases hp : p = op
    · subst hp
      rw [terms_bin_same, List.mem_append] at h
      exact h.elim ihl ihr
    · rw [terms_bin_other left right hp, List.mem_singleton] at h
      simpa [h, connective?] using hp

theorem terms_foldl (op : Connective) (first : Formula) (ts : List Formula)
    (h : ∀ t ∈ ts, t.connective? ≠ some op) :
    (ts.foldl (bin op) first).terms op = first.terms op ++ ts := by
  induction ts generalizing first with
  | nil => simp
  | cons t ts ih =>
    rw [List.foldl_cons, ih _ (fun u hu => h u (by simp [hu])), terms_bin_same,
      terms_of_connective_ne (h t (by simp)), List.append_assoc, List.singleton_append]

theorem terms_join (op : Connective) (ts : List Formula) (hts : ts ≠ [])
    (h : ∀ t ∈ ts, t.connective? ≠ some op) : (op.join ts).terms op = ts := by
  cases ts with
  | nil => exact absurd rfl hts
  | cons first rest =>
    show (rest.foldl (bin op) first).terms op = _
    rw [terms_foldl op first rest (fun t ht => h t (by simp [ht])),
      terms_of_connective_ne (h first (by simp)), List.singleton_append]

/-- Induction with one case for all chains of a connective, whatever their nesting: what holds of the
operands of a chain holds of the chain. -/
@[elab_as_elim]
theorem chain_induction {motive : Formula → Prop} (const : ∀ value, motive (.const value))
    (var : ∀ name, motive (.var name)) (neg : ∀ inner, motive inner → motive (.neg inner))
    (chain : ∀ op left right, (∀ t ∈ (bin op left right).terms op, motive t) →
      motive (.bin op left right)) (f : Formula) : motive f := by
  induction hn : f.size using Nat.strongRecOn generalizing f with
  | ind n ih =>
    subst hn
    cases f with
    | const value => exact const value
    | var name => exact var name
    | neg inner => exact neg inner (ih inner.size (by simp [Gauge.size]) inner rfl)
    | bin op left right =>
      exact chain op left right (fun t ht => ih t.size (size_lt_of_mem_terms ht) t rfl)

/-- The uses of a connective that are not operands of the same connective, below `outer`. -/
def chainsUnder (outer : Option Connective) : Formula → List Formula
  | .const _ => []
  | .var _ => []
  | .neg inner => inner.chainsUnder none
  | .bin op left right =>
    let inner := left.chainsUnder (some op) ++ right.chainsUnder (some op)
    if outer = some op then inner else .bin op left right :: inner

/-- The maximal chains of a formula. -/
def chains (f : Formula) : List Formula :=
  f.chainsUnder none

theorem mem_chainsUnder (op : Connective) (f c : Formula) :
    c ∈ f.chainsUnder (some op) ↔ ∃ t ∈ f.terms op, c ∈ t.chains := by
  induction f with
  | const => simp [chainsUnder, chains]
  | var => simp [chainsUnder, chains]
  | neg inner => simp [chainsUnder, chains]
  | bin p left right ihl ihr =>
    by_cases hp : p = op
    · subst hp
      rw [chainsUnder, if_pos rfl, List.mem_append, ihl, ihr, terms_bin_same]
      simp only [List.mem_append, or_and_right, exists_or]
    · have hne : ¬some op = some p := fun h => hp (Option.some.inj h).symm
      rw [terms_bin_other left right hp]
      simp [chains, chainsUnder, hne]

/-- The maximal chains of a chain are itself and those of its operands. -/
theorem mem_chains_bin (op : Connective) (left right c : Formula) :
    c ∈ (bin op left right).chains ↔
      c = bin op left right ∨ ∃ t ∈ (bin op left right).terms op, c ∈ t.chains := by
  rw [terms_bin_same]
  simp only [List.mem_append, or_and_right, exists_or, ← mem_chainsUnder]
  simp [chains, chainsUnder]

end Formula

end Sentential
