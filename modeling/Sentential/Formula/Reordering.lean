import Sentential.Formula.Gauge
import Sentential.Matching

/-!
# Equality up to reordering

Two formulas are alike when they differ only in the order and the nesting of
the operands of chains. No other Boolean law is applied: a repeated operand is
not the same as a single one.
-/

set_option autoImplicit false

namespace Sentential

namespace Formula

/-- Equality up to the order and the nesting of chains. -/
def alike (f g : Formula) : Bool :=
  match f, g with
  | .const a, .const b => a == b
  | .var a, .var b => a == b
  | .neg a, .neg b => a.alike b
  | .bin p a b, .bin q c d =>
    p == q && (((bin p a b).terms p).length == ((bin q c d).terms q).length &&
      (((bin p a b).terms p).attach.foldl
        (fun left t => left.bind (Matching.take? (fun u => t.val.alike u)))
        (some ((bin q c d).terms q))).isSome)
  | _, _ => false
termination_by f.size
decreasing_by
  · simp [Gauge.size]
  · exact size_lt_of_mem_terms t.property

@[simp] theorem alike_const (a b : Bool) : (const a).alike (const b) = (a == b) := by
  rw [alike]

@[simp] theorem alike_var (a b : String) : (var a).alike (var b) = (a == b) := by
  rw [alike]

@[simp] theorem alike_neg (a b : Formula) : (neg a).alike (neg b) = a.alike b := by
  rw [alike]

theorem alike_bin (p q : Connective) (a b c d : Formula) :
    (bin p a b).alike (bin q c d) =
      (p == q && Matching.pairsUp alike ((bin p a b).terms p) ((bin q c d).terms q)) := by
  rw [alike]
  exact congrArg (fun left => p == q && (_ && Option.isSome left))
    (List.foldl_attach (f := fun (left : Option (List Formula)) (t : Formula) =>
      left.bind (Matching.take? (fun u => t.alike u))))

end Formula

/-- The two lists hold alike operands in some order. -/
def termsAlike (left right : List Formula) : Bool :=
  Matching.pairsUp Formula.alike left right

/-- Every operand of `sub` has an alike partner of its own in `sup`. -/
def termsEmbed (sub sup : List Formula) : Bool :=
  Matching.embeds Formula.alike sub sup

namespace Gauge

theorem total_take? (g : Gauge) {p : Formula → Bool} {pool left : List Formula}
    (h : Matching.take? p pool = some left) :
    ∃ b ∈ pool, p b = true ∧ g.total pool = g.size b + g.bin + g.total left := by
  obtain ⟨before, b, after, rfl, rfl, hb, _⟩ := Matching.take?_eq_some h
  refine ⟨b, by simp, hb, ?_⟩
  simp
  omega

theorem total_leftover? (g : Gauge) {as pool left : List Formula}
    (same : ∀ a ∈ as, ∀ b, a.alike b = true → g.size a = g.size b)
    (h : Matching.leftover? Formula.alike as pool = some left) :
    g.total pool = g.total as + g.total left := by
  induction as generalizing pool with
  | nil => simp_all
  | cons a as ih =>
    simp only [Matching.leftover?_cons, Option.bind_eq_some_iff] at h
    obtain ⟨next, taken, h⟩ := h
    obtain ⟨b, _, hb, total⟩ := g.total_take? taken
    have := ih (fun a ha => same a (by simp [ha])) h
    have := same a (by simp) b hb
    simp
    omega

end Gauge

/-- Alike formulas have the same size in every gauge. -/
theorem Gauge.size_eq_of_alike (g : Gauge) {f h : Formula} (alike : f.alike h = true) :
    g.size f = g.size h := by
  induction f, h using Formula.alike.induct with
  | case1 a b => simp [size]
  | case2 a b => simp_all [size]
  | case3 a b ih => simp_all [size]
  | case4 p a b q c d ih =>
    rw [Formula.alike_bin] at alike
    simp only [Matching.pairsUp, Matching.embeds, Bool.and_eq_true, beq_iff_eq,
      Option.isSome_iff_exists] at alike
    obtain ⟨rfl, lengths, left, matched⟩ := alike
    have rest : left = [] := by
      have := Matching.length_leftover? matched
      exact List.length_eq_zero_iff.mp (by omega)
    subst rest
    have := g.total_leftover? (fun t ht u hu => ih ⟨t, ht⟩ u hu) matched
    have hf := g.total_terms p (.bin p a b)
    have hh := g.total_terms p (.bin p c d)
    simp only [total_nil] at this
    omega
  | case5 f h => simp_all [Formula.alike]

end Sentential
