import Mathlib.Data.List.Perm.Basic
import Mathlib.Data.List.Perm.Subperm
import Mathlib.Data.Quot
import Sentential.Formula.Reordering

/-!
# Rearrangement of chains

`Rearranged` is the least congruence with associativity and commutativity of
both connectives; it mentions neither chains nor matchings. In the quotient a
connective is a commutative and associative operation, so a formula is
determined there by the multiset of its operands, and a matching by equality of
the quotient is greedy without loss. That the test for alike formulas is an
equivalence is a consequence, not an assumption of the matching.
-/

set_option autoImplicit false

namespace Sentential

namespace Matching

variable {α β γ : Type}

/-- When partners are the members with equal labels, a list embeds in the pool exactly if its
labels are among those of the pool, with their multiplicities. -/
theorem embeds_iff_subperm (c : α → γ) (d : β → γ) {r : α → β → Bool} {as : List α}
    {pool : List β} (hr : ∀ a ∈ as, ∀ b, r a b = true ↔ c a = d b) :
    embeds r as pool = true ↔ (as.map c).Subperm (pool.map d) := by
  induction as generalizing pool with
  | nil => simp [embeds]
  | cons a as ih =>
    have ha := hr a (by simp)
    rw [embeds, leftover?_cons, List.map_cons]
    cases ht : take? (r a) pool with
    | none =>
      have hn := take?_eq_none_iff.mp ht
      have hs : ¬(c a :: as.map c).Subperm (pool.map d) := by
        intro hs
        obtain ⟨b, hb, he⟩ := List.mem_map.mp (hs.subset (by simp : c a ∈ c a :: as.map c))
        have hf := hn b hb
        rw [(ha b).mpr he.symm] at hf
        exact Bool.noConfusion hf
      simp [hs]
    | some left =>
      obtain ⟨before, b, after, rfl, rfl, hb, _⟩ := take?_eq_some ht
      have hp : ((before ++ b :: after).map d).Perm (c a :: (before ++ after).map d) := by
        rw [(ha b).mp hb, ← List.map_cons]
        exact List.perm_middle.map d
      rw [hp.subperm_left, List.subperm_cons]
      exact ih (fun a ha => hr a (by simp [ha]))

theorem pairsUp_iff_perm (c : α → γ) (d : β → γ) {r : α → β → Bool} {as : List α}
    {pool : List β} (hr : ∀ a ∈ as, ∀ b, r a b = true ↔ c a = d b) :
    pairsUp r as pool = true ↔ (as.map c).Perm (pool.map d) := by
  rw [pairsUp, Bool.and_eq_true, beq_iff_eq, embeds_iff_subperm c d hr]
  constructor
  · intro h
    exact h.2.perm_of_length_le (by simp [h.1])
  · intro h
    exact ⟨by simpa using h.length_eq, h.subperm⟩

end Matching

/-- The least congruence on formulas with associativity and commutativity of both connectives. -/
inductive Rearranged : Formula → Formula → Prop
  | refl (f : Formula) : Rearranged f f
  | symm {f g : Formula} : Rearranged f g → Rearranged g f
  | trans {f g h : Formula} : Rearranged f g → Rearranged g h → Rearranged f h
  | neg {f g : Formula} : Rearranged f g → Rearranged (.neg f) (.neg g)
  | bin (op : Connective) {left right l r : Formula} : Rearranged left l → Rearranged right r →
      Rearranged (.bin op left right) (.bin op l r)
  | assoc (op : Connective) (a b c : Formula) :
      Rearranged (.bin op (.bin op a b) c) (.bin op a (.bin op b c))
  | comm (op : Connective) (a b : Formula) : Rearranged (.bin op a b) (.bin op b a)

def rearrangement : Setoid Formula where
  r := Rearranged
  iseqv := ⟨.refl, .symm, .trans⟩

/-- Formulas up to rearrangement. -/
abbrev Unordered : Type := Quotient rearrangement

/-- The formula without the order and the nesting of its chains. -/
def Formula.unordered (f : Formula) : Unordered := Quotient.mk rearrangement f

theorem Formula.unordered_eq_iff (f g : Formula) :
    f.unordered = g.unordered ↔ Rearranged f g :=
  Quotient.eq

namespace Unordered

def bin (op : Connective) : Unordered → Unordered → Unordered :=
  Quotient.map₂ (Formula.bin op) (fun _ _ hl _ _ hr => .bin op hl hr)

theorem bin_comm (op : Connective) (a b : Unordered) : bin op a b = bin op b a := by
  induction a, b using Quotient.inductionOn₂ with
  | h f g => exact Quotient.sound (Rearranged.comm op f g)

theorem bin_assoc (op : Connective) (a b c : Unordered) :
    bin op (bin op a b) c = bin op a (bin op b c) := by
  induction a, b, c using Quotient.inductionOn₃ with
  | h f g h => exact Quotient.sound (Rearranged.assoc op f g h)

/-- Adds an operand to a chain that may still be empty. -/
def extend (op : Connective) : Option Unordered → Unordered → Option Unordered
  | none, b => some b
  | some a, b => some (bin op a b)

instance (op : Connective) : RightCommutative (extend op) where
  right_comm o a b := by
    cases o with
    | none => exact congrArg some (bin_comm op a b)
    | some c =>
      show some (bin op (bin op c a) b) = some (bin op (bin op c b) a)
      rw [bin_assoc, bin_assoc, bin_comm op a b]

end Unordered

namespace Formula

open Unordered (extend)

/-- The operands of a formula in the quotient. Their order is that of the formula; only their
multiset matters. -/
def parts (op : Connective) (f : Formula) : List Unordered :=
  (f.terms op).map unordered

theorem parts_bin_same (op : Connective) (left right : Formula) :
    (bin op left right).parts op = left.parts op ++ right.parts op := by
  simp [parts]

theorem parts_of_connective_ne {op : Connective} {f : Formula} (h : f.connective? ≠ some op) :
    f.parts op = [f.unordered] := by
  rw [parts, terms_of_connective_ne h, List.map_singleton]

theorem foldl_parts (op : Connective) (f : Formula) (o : Option Unordered) :
    (f.parts op).foldl (extend op) o = extend op o f.unordered := by
  induction f generalizing o with
  | const => rfl
  | var => rfl
  | neg => rfl
  | bin p left right ihl ihr =>
    by_cases hp : p = op
    · subst hp
      rw [parts_bin_same, List.foldl_append, ihl, ihr]
      cases o with
      | none => rfl
      | some a => exact congrArg some (Unordered.bin_assoc p a left.unordered right.unordered)
    · rw [parts_of_connective_ne (by simpa [connective?] using hp)]
      rfl

theorem unordered_of_parts (op : Connective) (f g : Formula)
    (h : (f.parts op).Perm (g.parts op)) : f.unordered = g.unordered := by
  have hf := foldl_parts op f none
  rw [h.foldl_eq, foldl_parts] at hf
  exact (Option.some.inj hf).symm

theorem foldl_unordered (op : Connective) (first : Formula) (rest : List Formula) :
    (rest.map unordered).foldl (extend op) (some first.unordered) =
      some (rest.foldl (bin op) first).unordered := by
  induction rest generalizing first with
  | nil => rfl
  | cons t rest ih => exact ih (bin op first t)

theorem unordered_join? (op : Connective) (ts : List Formula) :
    (op.join? ts).map unordered = (ts.map unordered).foldl (extend op) none := by
  cases ts with
  | nil => rfl
  | cons first rest => exact (foldl_unordered op first rest).symm

end Formula

namespace Rearranged

/-- Rearranged formulas that are not chains of `op` are one operand each. -/
theorem parts_single {f g : Formula} (h : Rearranged f g) {op : Connective}
    (hf : f.connective? ≠ some op) (hg : g.connective? ≠ some op) :
    (f.parts op).Perm (g.parts op) := by
  rw [Formula.parts_of_connective_ne hf, Formula.parts_of_connective_ne hg,
    (Formula.unordered_eq_iff f g).mpr h]

theorem parts_perm {f g : Formula} (h : Rearranged f g) (op : Connective) :
    (f.parts op).Perm (g.parts op) := by
  have hne (p : Connective) (hp : p ≠ op) (a b : Formula) :
      (Formula.bin p a b).connective? ≠ some op := by
    simpa [Formula.connective?] using hp
  induction h with
  | refl f => exact .refl _
  | symm _ ih => exact ih.symm
  | trans _ _ ihf ihg => exact ihf.trans ihg
  | neg h _ =>
    exact parts_single (.neg h) (by simp [Formula.connective?]) (by simp [Formula.connective?])
  | bin p hl hr ihl ihr =>
    by_cases hp : p = op
    · subst hp
      rw [Formula.parts_bin_same, Formula.parts_bin_same]
      exact ihl.append ihr
    · exact parts_single (.bin p hl hr) (hne p hp _ _) (hne p hp _ _)
  | assoc p a b c =>
    by_cases hp : p = op
    · subst hp
      simp only [Formula.parts_bin_same, List.append_assoc, List.Perm.refl]
    · exact parts_single (.assoc p a b c) (hne p hp _ _) (hne p hp _ _)
  | comm p a b =>
    by_cases hp : p = op
    · subst hp
      rw [Formula.parts_bin_same, Formula.parts_bin_same]
      exact List.perm_append_comm
    · exact parts_single (.comm p a b) (hne p hp _ _) (hne p hp _ _)

/-- What rearranged formulas show at their root: the same constant, name or connective, and under
a negation rearranged formulas again. -/
theorem root {f g : Formula} (h : Rearranged f g) :
    f.constant? = g.constant? ∧ f.name? = g.name? ∧ f.connective? = g.connective? ∧
      f.negated?.map Formula.unordered = g.negated?.map Formula.unordered := by
  induction h with
  | refl f => exact ⟨rfl, rfl, rfl, rfl⟩
  | symm _ ih => exact ⟨ih.1.symm, ih.2.1.symm, ih.2.2.1.symm, ih.2.2.2.symm⟩
  | trans _ _ ihf ihg =>
    exact ⟨ihf.1.trans ihg.1, ihf.2.1.trans ihg.2.1, ihf.2.2.1.trans ihg.2.2.1,
      ihf.2.2.2.trans ihg.2.2.2⟩
  | neg h _ => exact ⟨rfl, rfl, rfl, congrArg some ((Formula.unordered_eq_iff _ _).mpr h)⟩
  | bin p _ _ _ _ => exact ⟨rfl, rfl, rfl, rfl⟩
  | assoc p a b c => exact ⟨rfl, rfl, rfl, rfl⟩
  | comm p a b => exact ⟨rfl, rfl, rfl, rfl⟩

end Rearranged

namespace Formula

theorem alike_iff_unordered (f g : Formula) : f.alike g = true ↔ f.unordered = g.unordered := by
  induction f, g using Formula.alike.induct with
  | case1 a b =>
    rw [alike_const, beq_iff_eq, unordered_eq_iff]
    constructor
    · intro h
      rw [h]
      exact .refl _
    · intro h
      exact Option.some.inj h.root.1
  | case2 a b =>
    rw [alike_var, beq_iff_eq, unordered_eq_iff]
    constructor
    · intro h
      rw [h]
      exact .refl _
    · intro h
      exact Option.some.inj h.root.2.1
  | case3 a b ih =>
    rw [alike_neg, ih, unordered_eq_iff, unordered_eq_iff]
    constructor
    · intro h
      exact .neg h
    · intro h
      exact (unordered_eq_iff a b).mp (Option.some.inj h.root.2.2.2)
  | case4 p a b q c d ih =>
    rw [alike_bin, Bool.and_eq_true, beq_iff_eq,
      Matching.pairsUp_iff_perm unordered unordered (fun t ht u => ih ⟨t, ht⟩ u)]
    constructor
    · rintro ⟨rfl, h⟩
      exact unordered_of_parts p _ _ h
    · intro h
      have hr := (unordered_eq_iff _ _).mp h
      have hp : p = q := Option.some.inj hr.root.2.2.1
      subst hp
      exact ⟨rfl, hr.parts_perm p⟩
  | case5 f g hc hv hn hb =>
    have hf : ¬f.unordered = g.unordered := by
      intro h
      have hr := ((unordered_eq_iff f g).mp h).root
      cases f <;> cases g <;>
        simp [constant?, name?, connective?, negated?] at hr hc hv hn
      exact hb _ _ _ _ _ _ rfl rfl
    simp [alike, hf]

theorem alike_comm (f g : Formula) : f.alike g = g.alike f := by
  rw [Bool.eq_iff_iff, alike_iff_unordered, alike_iff_unordered, eq_comm]

theorem termsAlike_iff (ts us : List Formula) :
    termsAlike ts us = true ↔ (ts.map unordered).Perm (us.map unordered) :=
  Matching.pairsUp_iff_perm unordered unordered (fun t _ u => alike_iff_unordered t u)

theorem alike_join (op : Connective) {ts us : List Formula} (h : termsAlike ts us = true) :
    (op.join ts).alike (op.join us) = true := by
  have hget (ws : List Formula) : (op.join ws).unordered =
      ((ws.map unordered).foldl (Unordered.extend op) none).getD (const op.neutral).unordered := by
    rw [← unordered_join?, Connective.join]
    cases op.join? ws <;> rfl
  rw [alike_iff_unordered, hget, hget, ((termsAlike_iff ts us).mp h).foldl_eq]

/-- Nesting the operands of a chain to the left only rearranges it. -/
theorem alike_join_terms (op : Connective) (f : Formula) :
    (op.join (f.terms op)).alike f = true := by
  have hj : (op.join? (f.terms op)).map unordered = some f.unordered := by
    rw [unordered_join?]
    exact foldl_parts op f none
  obtain ⟨g, hg, he⟩ := Option.map_eq_some_iff.mp hj
  rw [alike_iff_unordered, Connective.join, hg]
  exact he

/-- Formulas are alike exactly if the least congruence with associativity and commutativity of both
connectives relates them. In particular the test is an equivalence. -/
theorem alike_least_congruence :
    (∀ f g : Formula, f.alike g = true ↔ Rearranged f g) ∧
      Equivalence (fun f g : Formula => f.alike g = true) := by
  constructor
  · intro f g
    rw [alike_iff_unordered, unordered_eq_iff]
  · simp only [alike_iff_unordered]
    exact eq_equivalence.comap unordered

end Formula

end Sentential
