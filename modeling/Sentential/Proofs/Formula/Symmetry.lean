import Mathlib.Logic.Equiv.Basic
import Sentential.Proofs.Formula.Chain
import Sentential.Formula.Reordering

/-!
# Symmetries of formulas

A symmetry renames the variables one to one and may exchange the two connectives
together with the two constants. It keeps the shape of a formula, so everything
that is decided by comparing parts of formulas is decided alike before and after
it: chains, matchings and the test for alike formulas. Nothing is assumed about
names beyond that different names stay different.
-/

set_option autoImplicit false

namespace Sentential

namespace Matching

variable {α β γ δ : Type}

theorem take?_map (g : β → γ) (p : β → Bool) (q : γ → Bool) (pool : List β)
    (h : ∀ b ∈ pool, q (g b) = p b) :
    take? q (pool.map g) = (take? p pool).map (List.map g) := by
  induction pool with
  | nil => rfl
  | cons b rest ih =>
    rw [List.forall_mem_cons] at h
    rw [List.map_cons, take?, take?, h.1, ih h.2]
    by_cases hb : p b = true
    · rw [if_pos hb, if_pos hb]
      rfl
    · rw [if_neg hb, if_neg hb]
      cases take? p rest <;> rfl

theorem leftover?_map (f : α → γ) (g : β → δ) (r : α → β → Bool) (s : γ → δ → Bool)
    (as : List α) (pool : List β) (h : ∀ a ∈ as, ∀ b, s (f a) (g b) = r a b) :
    leftover? s (as.map f) (pool.map g) = (leftover? r as pool).map (List.map g) := by
  induction as generalizing pool with
  | nil => rfl
  | cons a as ih =>
    rw [List.forall_mem_cons] at h
    rw [List.map_cons, leftover?_cons, leftover?_cons,
      take?_map g (r a) (s (f a)) pool (fun b _ => h.1 b)]
    cases take? (r a) pool with
    | none => rfl
    | some left => exact ih left h.2

theorem embeds_map (f : α → γ) (g : β → δ) (r : α → β → Bool) (s : γ → δ → Bool)
    (as : List α) (pool : List β) (h : ∀ a ∈ as, ∀ b, s (f a) (g b) = r a b) :
    embeds s (as.map f) (pool.map g) = embeds r as pool := by
  rw [embeds, embeds, leftover?_map f g r s as pool h, Option.isSome_map]

theorem pairsUp_map (f : α → γ) (g : β → δ) (r : α → β → Bool) (s : γ → δ → Bool)
    (as : List α) (pool : List β) (h : ∀ a ∈ as, ∀ b, s (f a) (g b) = r a b) :
    pairsUp s (as.map f) (pool.map g) = pairsUp r as pool := by
  rw [pairsUp, pairsUp, embeds_map f g r s as pool h, List.length_map, List.length_map]

end Matching

/-- A one-to-one renaming, together with an exchange of the connectives and of the constants if
`exchanges` is true. -/
structure Symmetry where
  exchanges : Bool
  rename : String → String
  injective : Function.Injective rename

namespace Symmetry

def connective (s : Symmetry) (op : Connective) : Connective :=
  if s.exchanges then op.dual else op

def value (s : Symmetry) (b : Bool) : Bool :=
  b ^^ s.exchanges

def apply (s : Symmetry) : Formula → Formula
  | .const b => .const (s.value b)
  | .var name => .var (s.rename name)
  | .neg inner => .neg (s.apply inner)
  | .bin op left right => .bin (s.connective op) (s.apply left) (s.apply right)

variable (s : Symmetry)

@[simp] theorem apply_const (b : Bool) : s.apply (.const b) = .const (s.value b) := rfl

@[simp] theorem apply_var (name : String) : s.apply (.var name) = .var (s.rename name) := rfl

@[simp] theorem apply_neg (f : Formula) : s.apply (.neg f) = .neg (s.apply f) := rfl

@[simp] theorem apply_bin (op : Connective) (left right : Formula) :
    s.apply (.bin op left right) = .bin (s.connective op) (s.apply left) (s.apply right) := rfl

theorem connective_dual (op : Connective) : s.connective op.dual = (s.connective op).dual := by
  unfold connective
  split <;> rfl

@[simp] theorem connective_inj (p q : Connective) : s.connective p = s.connective q ↔ p = q := by
  unfold connective
  cases s.exchanges <;> cases p <;> cases q <;> decide

@[simp] theorem value_inj (a b : Bool) : s.value a = s.value b ↔ a = b := by
  unfold value
  cases s.exchanges <;> cases a <;> cases b <;> decide

@[simp] theorem value_not (b : Bool) : s.value (!b) = !s.value b := by
  unfold value
  cases s.exchanges <;> cases b <;> rfl

theorem value_absorbing (op : Connective) : s.value op.absorbing = (s.connective op).absorbing := by
  unfold value connective
  cases s.exchanges <;> cases op <;> rfl

theorem value_neutral (op : Connective) : s.value op.neutral = (s.connective op).neutral := by
  unfold value connective
  cases s.exchanges <;> cases op <;> rfl

theorem apply_absorbing (op : Connective) :
    s.apply (.const op.absorbing) = .const (s.connective op).absorbing := by
  rw [apply_const, value_absorbing]

theorem apply_neutral (op : Connective) :
    s.apply (.const op.neutral) = .const (s.connective op).neutral := by
  rw [apply_const, value_neutral]

@[simp] theorem apply_inj (f g : Formula) : s.apply f = s.apply g ↔ f = g := by
  constructor
  · intro h
    induction f generalizing g with
    | const a => cases g <;> simp_all
    | var a => cases g <;> simp_all [s.injective.eq_iff]
    | neg a ih =>
      cases g <;> simp only [apply_const, apply_var, apply_neg, apply_bin, reduceCtorEq,
        Formula.neg.injEq] at h
      rw [ih _ h]
    | bin p a b iha ihb =>
      cases g <;> simp only [apply_const, apply_var, apply_neg, apply_bin, reduceCtorEq,
        Formula.bin.injEq, connective_inj] at h
      rw [h.1, iha _ h.2.1, ihb _ h.2.2]
  · intro h
    rw [h]

theorem negated?_apply (f : Formula) : (s.apply f).negated? = f.negated?.map s.apply := by
  cases f <;> rfl

@[simp] theorem connective?_apply_eq_some (f : Formula) (op : Connective) :
    (s.apply f).connective? = some (s.connective op) ↔ f.connective? = some op := by
  cases f <;> simp [Formula.connective?]

@[simp] theorem size_apply (f : Formula) : (s.apply f).size = f.size := by
  induction f with
  | const => rfl
  | var => rfl
  | neg inner ih => simp only [apply_neg, Formula.size, Gauge.size] at *; rw [ih]
  | bin op left right ihl ihr =>
    simp only [apply_bin, Formula.size, Gauge.size] at *
    rw [ihl, ihr]

theorem opposite_apply (f : Formula) : (s.apply f).opposite = s.apply f.opposite := by
  cases f <;> rfl

theorem foldedNeg_apply (f : Formula) : (s.apply f).foldedNeg = s.apply f.foldedNeg := by
  cases f <;> simp [Formula.foldedNeg]

theorem terms_apply (op : Connective) (f : Formula) :
    (s.apply f).terms (s.connective op) = (f.terms op).map s.apply := by
  induction f with
  | const => rfl
  | var => rfl
  | neg => rfl
  | bin p left right ihl ihr =>
    by_cases hp : p = op
    · subst hp
      rw [apply_bin, Formula.terms_bin_same, Formula.terms_bin_same, ihl, ihr, List.map_append]
    · rw [apply_bin, Formula.terms_bin_other left right hp,
        Formula.terms_bin_other _ _ (by simpa using hp), List.map_singleton, apply_bin]

theorem terms_dual_apply (op : Connective) (f : Formula) :
    (s.apply f).terms (s.connective op).dual = (f.terms op.dual).map s.apply := by
  rw [← connective_dual, terms_apply]

theorem foldl_bin_apply (op : Connective) (first : Formula) (rest : List Formula) :
    (rest.map s.apply).foldl (.bin (s.connective op)) (s.apply first) =
      s.apply (rest.foldl (.bin op) first) := by
  induction rest generalizing first with
  | nil => rfl
  | cons t rest ih => exact ih (.bin op first t)

theorem join?_apply (op : Connective) (ts : List Formula) :
    (s.connective op).join? (ts.map s.apply) = (op.join? ts).map s.apply := by
  cases ts with
  | nil => rfl
  | cons first rest => exact congrArg some (s.foldl_bin_apply op first rest)

theorem join?_dual_apply (op : Connective) (ts : List Formula) :
    (s.connective op).dual.join? (ts.map s.apply) = (op.dual.join? ts).map s.apply := by
  rw [← connective_dual, join?_apply]

theorem join_apply (op : Connective) (ts : List Formula) :
    (s.connective op).join (ts.map s.apply) = s.apply (op.join ts) := by
  rw [Connective.join, Connective.join, join?_apply]
  cases op.join? ts with
  | none => exact (s.apply_neutral op).symm
  | some f => rfl

/-- Formulas are alike exactly if their images are. -/
theorem alike_apply (f g : Formula) : (s.apply f).alike (s.apply g) = f.alike g := by
  induction f, g using Formula.alike.induct with
  | case1 a b =>
    rw [apply_const, apply_const, Formula.alike_const, Formula.alike_const, Bool.eq_iff_iff,
      beq_iff_eq, beq_iff_eq, value_inj]
  | case2 a b =>
    rw [apply_var, apply_var, Formula.alike_var, Formula.alike_var, Bool.eq_iff_iff,
      beq_iff_eq, beq_iff_eq, s.injective.eq_iff]
  | case3 a b ih => rw [apply_neg, apply_neg, Formula.alike_neg, Formula.alike_neg, ih]
  | case4 p a b q c d ih =>
    have hb : (s.connective p == s.connective q) = (p == q) := by
      rw [Bool.eq_iff_iff, beq_iff_eq, beq_iff_eq, connective_inj]
    have ht (op : Connective) (l r : Formula) :
        (Formula.bin (s.connective op) (s.apply l) (s.apply r)).terms (s.connective op) =
          ((Formula.bin op l r).terms op).map s.apply :=
      s.terms_apply op (.bin op l r)
    rw [apply_bin, apply_bin, Formula.alike_bin, Formula.alike_bin, hb, ht, ht,
      Matching.pairsUp_map s.apply s.apply Formula.alike Formula.alike _ _
        (fun t h u => ih ⟨t, h⟩ u)]
  | case5 f g hc hv hn hb =>
    cases f <;> cases g <;> simp [Formula.alike] at hc hv hn ⊢
    exact absurd rfl (hb _ _ _ _ _ _ rfl)

theorem termsEmbed_apply (sub sup : List Formula) :
    termsEmbed (sub.map s.apply) (sup.map s.apply) = termsEmbed sub sup :=
  Matching.embeds_map s.apply s.apply _ _ sub sup (fun t _ u => s.alike_apply t u)

/-- The exchange of two names. -/
def swap (a b : String) : Symmetry :=
  ⟨false, Equiv.swap a b, (Equiv.swap a b).injective⟩

theorem swap_of_fresh {a b : String} {f : Formula} (ha : a ∉ f.occurrences)
    (hb : b ∉ f.occurrences) : (swap a b).apply f = f := by
  induction f with
  | const => simp [swap, value]
  | var name =>
    rw [Formula.occurrences_var, List.mem_singleton] at ha hb
    exact congrArg Formula.var (Equiv.swap_apply_of_ne_of_ne (Ne.symm ha) (Ne.symm hb))
  | neg inner ih => rw [apply_neg, ih ha hb]
  | bin op left right ihl ihr =>
    rw [Formula.mem_occurrences_bin, not_or] at ha hb
    rw [apply_bin, ihl ha.1 hb.1, ihr ha.2 hb.2]
    rfl

end Symmetry

/-- The formula with conjunction and disjunction exchanged, and true and false. -/
def Formula.dual : Formula → Formula
  | .const b => .const (!b)
  | .var name => .var name
  | .neg inner => .neg inner.dual
  | .bin op left right => .bin op.dual left.dual right.dual

/-- The exchange of the connectives and of the constants that keeps all names. -/
def Symmetry.duality : Symmetry :=
  ⟨true, id, Function.injective_id⟩

theorem Symmetry.apply_duality (f : Formula) : duality.apply f = f.dual := by
  induction f with
  | const b => simp [duality, value, Formula.dual]
  | var => rfl
  | neg inner ih => rw [apply_neg, ih, Formula.dual]
  | bin op left right ihl ihr =>
    rw [apply_bin, ihl, ihr, Formula.dual]
    rfl

end Sentential
