import Sentential.Formula.Chain

/-!
# Additive sizes

A gauge charges each node of a formula and adds the charges up. The number of
nodes and the number of bytes of the printed text are both gauges, so a law
about how a rearrangement changes sizes is stated once for all gauges.
-/

set_option autoImplicit false

namespace Sentential

/-- Charges for the nodes of a formula. A connective costs at least as much as a constant. -/
structure Gauge where
  const : Nat
  var : String → Nat
  neg : Nat
  bin : Nat
  neg_pos : 0 < neg
  bin_pos : 0 < bin
  const_le_bin : const ≤ bin

namespace Gauge

def size (g : Gauge) : Formula → Nat
  | .const _ => g.const
  | .var name => g.var name
  | .neg inner => g.neg + g.size inner
  | .bin _ left right => g.bin + g.size left + g.size right

/-- The size of a list of operands, each with a connective of its own. -/
def total (g : Gauge) : List Formula → Nat
  | [] => 0
  | t :: ts => g.size t + g.bin + g.total ts

/-- The totals of several lists of operands together. -/
def totals (g : Gauge) : List (List Formula) → Nat
  | [] => 0
  | ts :: lists => g.total ts + g.totals lists

/-- Every node counts one. -/
@[reducible] def nodes : Gauge where
  const := 1
  var := fun _ => 1
  neg := 1
  bin := 1
  neg_pos := Nat.one_pos
  bin_pos := Nat.one_pos
  const_le_bin := Nat.le_refl 1

@[simp] theorem total_nil (g : Gauge) : g.total [] = 0 := rfl

@[simp] theorem total_cons (g : Gauge) (t : Formula) (ts : List Formula) :
    g.total (t :: ts) = g.size t + g.bin + g.total ts := rfl

@[simp] theorem total_append (g : Gauge) (ts us : List Formula) :
    g.total (ts ++ us) = g.total ts + g.total us := by
  induction ts with
  | nil => simp
  | cons t ts ih =>
    simp [ih]
    omega

@[simp] theorem totals_nil (g : Gauge) : g.totals [] = 0 := rfl

@[simp] theorem totals_cons (g : Gauge) (ts : List Formula) (lists : List (List Formula)) :
    g.totals (ts :: lists) = g.total ts + g.totals lists := rfl

theorem total_terms (g : Gauge) (op : Connective) (f : Formula) :
    g.total (f.terms op) = g.size f + g.bin := by
  induction f with
  | const => simp [size]
  | var => simp [size]
  | neg => simp [size]
  | bin p left right ihl ihr =>
    by_cases h : p = op
    · subst h
      simp [size, ihl, ihr]
      omega
    · simp [Formula.terms_bin_other left right h]

theorem size_foldl_bin (g : Gauge) (op : Connective) (first : Formula) (rest : List Formula) :
    g.size (rest.foldl (.bin op) first) = g.size first + g.total rest := by
  induction rest generalizing first with
  | nil => simp
  | cons t ts ih =>
    simp [ih, size]
    omega

theorem size_join? (g : Gauge) {op : Connective} {ts : List Formula} {f : Formula}
    (h : op.join? ts = some f) : g.size f + g.bin = g.total ts := by
  cases ts with
  | nil => simp [Connective.join?] at h
  | cons first rest =>
    simp only [Connective.join?, Option.some.injEq] at h
    subst h
    simp [size_foldl_bin]
    omega

theorem size_le_total (g : Gauge) {t : Formula} {ts : List Formula} (h : t ∈ ts) :
    g.size t + g.bin ≤ g.total ts := by
  induction ts with
  | nil => simp at h
  | cons first rest ih =>
    simp only [List.mem_cons] at h
    rcases h with rfl | h
    · simp
    · have := ih h
      simp
      omega

theorem total_filter_le (g : Gauge) (p : Formula → Bool) (ts : List Formula) :
    g.total (ts.filter p) ≤ g.total ts := by
  induction ts with
  | nil => simp
  | cons t ts ih =>
    simp only [List.filter_cons]
    cases p t <;> simp <;> omega

/-- A filter that leaves something out takes away at least one connective. -/
theorem total_filter_add_bin_le (g : Gauge) (p : Formula → Bool) (ts : List Formula)
    (h : (ts.filter p).length ≠ ts.length) : g.total (ts.filter p) + g.bin ≤ g.total ts := by
  induction ts with
  | nil => simp at h
  | cons t ts ih =>
    simp only [List.filter_cons] at h ⊢
    cases hp : p t with
    | false =>
      have := g.total_filter_le p ts
      simp
      omega
    | true =>
      have := ih (by simpa [hp] using h)
      simp
      omega

end Gauge

/-- The number of nodes. -/
abbrev Formula.size (f : Formula) : Nat := Gauge.nodes.size f

/-- The number of nodes of a list of operands and of one connective for each. -/
abbrev Formula.totalSize (ts : List Formula) : Nat := Gauge.nodes.total ts

namespace Formula

/-- Smaller in every gauge. -/
def Smaller (f g : Formula) : Prop := ∀ m : Gauge, m.size f < m.size g

/-- Not larger in any gauge. -/
def NoLarger (f g : Formula) : Prop := ∀ m : Gauge, m.size f ≤ m.size g

theorem NoLarger.refl (f : Formula) : f.NoLarger f := fun _ => Nat.le_refl _

theorem Smaller.noLarger {f g : Formula} (h : f.Smaller g) : f.NoLarger g :=
  fun m => Nat.le_of_lt (h m)

theorem Smaller.trans_noLarger {f g h : Formula} (first : f.Smaller g) (second : g.NoLarger h) :
    f.Smaller h :=
  fun m => Nat.lt_of_lt_of_le (first m) (second m)

/-- The same formula or a smaller one. -/
def Within (f g : Formula) : Prop := f = g ∨ f.Smaller g

theorem Within.refl (f : Formula) : f.Within f := .inl rfl

theorem Within.noLarger {f g : Formula} (h : f.Within g) : f.NoLarger g := by
  rcases h with rfl | h
  · exact .refl f
  · exact h.noLarger

theorem Smaller.trans_within {f g h : Formula} (first : f.Smaller g) (second : g.Within h) :
    f.Smaller h :=
  first.trans_noLarger second.noLarger

theorem Within.trans_smaller {f g h : Formula} (first : f.Within g) (second : g.Smaller h) :
    f.Smaller h := by
  rcases first with rfl | first
  · exact second
  · exact first.trans_noLarger second.noLarger

theorem Within.trans {f g h : Formula} (first : f.Within g) (second : g.Within h) :
    f.Within h := by
  rcases second with rfl | second
  · exact first
  · exact .inr (first.trans_smaller second)

theorem Within.neg {f g : Formula} (h : f.Within g) : (Formula.neg f).Within (.neg g) := by
  rcases h with rfl | h
  · exact .refl _
  · exact .inr (fun m => Nat.add_lt_add_left (h m) _)

theorem Within.bin (op : Connective) {left right l r : Formula} (hl : l.Within left)
    (hr : r.Within right) : (Formula.bin op l r).Within (.bin op left right) := by
  rcases hl with rfl | hl
  · rcases hr with rfl | hr
    · exact .refl _
    · exact .inr (fun m => Nat.add_lt_add_left (hr m) _)
  · refine .inr (fun m => ?_)
    have := hl m
    have := hr.noLarger m
    simp only [Gauge.size]
    omega

theorem smaller_left (op : Connective) (left right : Formula) :
    left.Smaller (.bin op left right) := by
  intro m
  have := m.bin_pos
  simp only [Gauge.size]
  omega

theorem smaller_right (op : Connective) (left right : Formula) :
    right.Smaller (.bin op left right) := by
  intro m
  have := m.bin_pos
  simp only [Gauge.size]
  omega

theorem foldedNeg_within (f : Formula) : f.foldedNeg.Within (.neg f) := by
  cases f with
  | var => exact .refl _
  | bin => exact .refl _
  | const =>
    refine .inr (fun m => ?_)
    have := m.neg_pos
    simp only [foldedNeg, Gauge.size]
    omega
  | neg inner =>
    refine .inr (fun m => ?_)
    have := m.neg_pos
    simp only [foldedNeg, Gauge.size]
    omega

theorem size_pos (f : Formula) : 0 < f.size := by
  cases f <;> simp only [size, Gauge.size] <;> omega

theorem size_opposite_le (m : Gauge) (f : Formula) : m.size f.opposite ≤ m.neg + m.size f := by
  cases f <;> simp only [opposite, Gauge.size] <;> omega

/-- An operand of a proper chain is smaller than the chain. -/
theorem size_lt_of_mem_terms {op : Connective} {left right t : Formula}
    (h : t ∈ (bin op left right).terms op) : t.size < (bin op left right).size := by
  rw [terms_bin_same, List.mem_append] at h
  have hl := Gauge.nodes.total_terms op left
  have hr := Gauge.nodes.total_terms op right
  simp only [size, Gauge.size]
  rcases h with h | h
  · have := Gauge.nodes.size_le_total h
    omega
  · have := Gauge.nodes.size_le_total h
    omega

end Formula

end Sentential
