import Mathlib.Logic.Function.Basic
import Sentential.Clause.Conversion
import Sentential.Proofs.Clause.Table
import Sentential.Proofs.Formula.Meaning

/-!
# Models of converted formulas

Whatever satisfies the rows of a formula makes the formula true; this needs
nothing about names. Conversely a valuation that makes the formula true is
changed on auxiliary variables only until it satisfies the rows, and this is
where they have to be fresh. The numbers of the auxiliary variables that a
conversion may use form an interval, so conversions by one converter do not
disturb each other.
-/

set_option autoImplicit false

namespace Sentential.Conversion

/-- The names that stand for the constants have their values. -/
def Grounded (v : Valuation) : Prop := ∀ b, v (constantName b) = b

/-- The valuation with the constants' names set to their values. -/
def ground (v : Valuation) : Valuation :=
  fun name => if name = constantName true then true
    else if name = constantName false then false else v name

theorem ground_grounded (v : Valuation) : Grounded (ground v) := by
  intro b
  cases b <;> simp [ground, constantName]

theorem ground_of_ne (v : Valuation) (name : String) (h : ∀ b, name ≠ constantName b) :
    ground v name = v name := by
  simp [ground, h true, h false]

/-- An auxiliary variable with a number from `lo` up to but not including `hi`. -/
def Introduced (lo hi : Nat) (name : String) : Prop :=
  ∃ k, lo ≤ k ∧ k < hi ∧ name = auxiliary k

theorem auxiliary_injective (j k : Nat) (h : auxiliary j = auxiliary k) : j = k := by
  have hr : j.repr = k.repr := by
    rw [auxiliary, auxiliary, ← String.toList_inj, String.toList_append, String.toList_append] at h
    exact String.toList_inj.mp (List.append_cancel_left h)
  have hd := congrArg (fun s => Nat.ofDigitChars 10 s.toList 0) hr
  simpa using hd

theorem ne_auxiliary_of_head (name : String) (k : Nat) (h : name.toList.head? ≠ some 't') :
    name ≠ auxiliary k := by
  rintro rfl
  simp [auxiliary] at h

theorem ne_constantName_of_head (name : String) (b : Bool) (h : name.toList.head? ≠ some 'P') :
    name ≠ constantName b := by
  rintro rfl
  cases b <;> simp [constantName] at h

theorem auxiliary_ne_constantName (k : Nat) (b : Bool) : auxiliary k ≠ constantName b :=
  ne_constantName_of_head _ b (by simp [auxiliary])

theorem introduced_auxiliary (lo hi k : Nat) : Introduced lo hi (auxiliary k) ↔ lo ≤ k ∧ k < hi := by
  constructor
  · rintro ⟨j, hl, hh, he⟩
    rw [auxiliary_injective k j he]
    exact ⟨hl, hh⟩
  · rintro ⟨hl, hh⟩
    exact ⟨k, hl, hh, rfl⟩

theorem Introduced.widen {lo hi lo' hi' : Nat} {name : String} (h : Introduced lo hi name)
    (hl : lo' ≤ lo) (hh : hi ≤ hi') : Introduced lo' hi' name := by
  obtain ⟨k, hk, hk', he⟩ := h
  exact ⟨k, by omega, by omega, he⟩

theorem constantName_not_introduced (lo hi : Nat) (b : Bool) :
    ¬Introduced lo hi (constantName b) := by
  rintro ⟨k, _, _, he⟩
  exact auxiliary_ne_constantName k b he.symm

def RowsHold (v : Valuation) (rs : List Row) : Prop :=
  ∀ row ∈ rs, ∃ l ∈ row, l.holds v = true

theorem rowsHold_append (v : Valuation) (rs ss : List Row) :
    RowsHold v (rs ++ ss) ↔ RowsHold v rs ∧ RowsHold v ss := by
  simp only [RowsHold, List.mem_append, or_imp, forall_and]

theorem rowsHold_guarded (v : Valuation) (l : Literal) (rs : List Row) :
    RowsHold v (rs.map (fun row => l :: row)) ↔ l.holds v = true ∨ RowsHold v rs := by
  simp only [RowsHold, List.forall_mem_map, List.mem_cons, exists_eq_or_imp]
  by_cases hl : l.holds v = true <;> simp [hl]

/-- Joining the rows of two tables in every way is their disjunction. -/
theorem rowsHold_distribute (v : Valuation) (rs ss : List Row) :
    RowsHold v (distribute rs ss) ↔ RowsHold v rs ∨ RowsHold v ss := by
  constructor
  · intro h
    by_cases hr : RowsHold v rs
    · exact .inl hr
    · -- a row of `rs` that fails leaves every row of `ss` to hold on its own
      obtain ⟨p, hp, hf⟩ : ∃ p ∈ rs, ¬∃ l ∈ p, l.holds v = true := by
        simpa [RowsHold] using hr
      refine .inr (fun q hq => ?_)
      obtain ⟨l, hl, hv⟩ := h (p ++ q)
        (List.mem_flatMap.mpr ⟨p, hp, List.mem_map.mpr ⟨q, hq, rfl⟩⟩)
      rcases List.mem_append.mp hl with hl | hl
      · exact absurd ⟨l, hl, hv⟩ hf
      · exact ⟨l, hl, hv⟩
  · intro h row hrow
    obtain ⟨p, hp, hm⟩ := List.mem_flatMap.mp hrow
    obtain ⟨q, hq, rfl⟩ := List.mem_map.mp hm
    rcases h with h | h
    · obtain ⟨l, hl, hv⟩ := h p hp
      exact ⟨l, List.mem_append_left q hl, hv⟩
    · obtain ⟨l, hl, hv⟩ := h q hq
      exact ⟨l, List.mem_append_right p hl, hv⟩

theorem rowsHold_transfer (v w : Valuation) (rs : List Row)
    (hn : ∀ row ∈ rs, ∀ l ∈ row, v l.name = w l.name) (h : RowsHold v rs) : RowsHold w rs := by
  intro row hr
  obtain ⟨l, hl, hv⟩ := h row hr
  refine ⟨l, hl, ?_⟩
  rw [Literal.holds, ← hn row hr l hl]
  exact hv

section Rows

variable (s : Strategy) (positive : Bool) (next : Nat) (op : Connective) (left right : Formula)

/-- The rows of the left operand come first, and those of the right operand use the auxiliary
numbers after theirs. -/
theorem rows_and (hu : op.under positive = .and) :
    rows s positive next (.bin op left right) =
      ((rows s positive next left).1 ++ (rows s positive (rows s positive next left).2 right).1,
        (rows s positive (rows s positive next left).2 right).2) := by
  rw [rows, hu]

theorem rows_split (hu : op.under positive = .or)
    (hs : s = .replacing ∧ isCompound left ∧ isCompound right) :
    rows s positive next (.bin op left right) =
      ((rows s positive (next + 1) left).1.map (fun row => .negative (auxiliary next) :: row) ++
        (rows s positive (rows s positive (next + 1) left).2 right).1.map
          (fun row => .positive (auxiliary next) :: row),
        (rows s positive (rows s positive (next + 1) left).2 right).2) := by
  rw [rows, hu]
  exact if_pos hs

theorem rows_distribute (hu : op.under positive = .or)
    (hs : ¬(s = .replacing ∧ isCompound left ∧ isCompound right)) :
    rows s positive next (.bin op left right) =
      (distribute (rows s positive next left).1
        (rows s positive (rows s positive next left).2 right).1,
        (rows s positive (rows s positive next left).2 right).2) := by
  rw [rows, hu]
  exact if_neg hs

end Rows

theorem apply_under_and (positive : Bool) (op : Connective) (a b : Bool)
    (hu : op.under positive = .and) :
    op.apply a b = positive ↔ a = positive ∧ b = positive := by
  revert hu
  cases positive <;> cases op <;> cases a <;> cases b <;> decide

theorem apply_under_or (positive : Bool) (op : Connective) (a b : Bool)
    (hu : op.under positive = .or) :
    op.apply a b = positive ↔ a = positive ∨ b = positive := by
  revert hu
  cases positive <;> cases op <;> cases a <;> cases b <;> decide

theorem next_le (s : Strategy) (positive : Bool) (next : Nat) (f : Formula) :
    next ≤ (rows s positive next f).2 := by
  induction f generalizing positive next with
  | const => exact Nat.le_refl _
  | var => exact Nat.le_refl _
  | neg inner ih => exact ih (!positive) next
  | bin op left right ihl ihr =>
    cases hu : op.under positive with
    | and =>
      rw [rows_and s positive next op left right hu]
      exact Nat.le_trans (ihl positive next) (ihr positive _)
    | or =>
      by_cases hs : s = .replacing ∧ isCompound left ∧ isCompound right
      · rw [rows_split s positive next op left right hu hs]
        exact Nat.le_trans (Nat.le_succ next)
          (Nat.le_trans (ihl positive (next + 1)) (ihr positive _))
      · rw [rows_distribute s positive next op left right hu hs]
        exact Nat.le_trans (ihl positive next) (ihr positive _)

theorem rows_distributing_next (positive : Bool) (next : Nat) (f : Formula) :
    (rows .distributing positive next f).2 = next := by
  induction f generalizing positive next with
  | const => rfl
  | var => rfl
  | neg inner ih => exact ih (!positive) next
  | bin op left right ihl ihr =>
    cases hu : op.under positive with
    | and => rw [rows_and _ _ _ _ _ _ hu, ihr, ihl]
    | or => rw [rows_distribute _ _ _ _ _ _ hu (by simp), ihr, ihl]

/-- A name of the formula, a constant's name if the formula has a constant, or an auxiliary
variable with a number in the interval. -/
def Sourced (f : Formula) (lo hi : Nat) (name : String) : Prop :=
  name ∈ f.occurrences ∨ (f.hasConstant = true ∧ ∃ b, name = constantName b) ∨
    Introduced lo hi name

theorem Sourced.left {left : Formula} {lo hi lo' hi' : Nat} {name : String}
    (h : Sourced left lo hi name) (op : Connective) (right : Formula) (hl : lo' ≤ lo)
    (hh : hi ≤ hi') : Sourced (.bin op left right) lo' hi' name := by
  rcases h with h | ⟨hc, h⟩ | h
  · exact .inl (by simp [h])
  · exact .inr (.inl ⟨by simp [Formula.hasConstant, hc], h⟩)
  · exact .inr (.inr (h.widen hl hh))

theorem Sourced.right {right : Formula} {lo hi lo' hi' : Nat} {name : String}
    (h : Sourced right lo hi name) (op : Connective) (left : Formula) (hl : lo' ≤ lo)
    (hh : hi ≤ hi') : Sourced (.bin op left right) lo' hi' name := by
  rcases h with h | ⟨hc, h⟩ | h
  · exact .inl (by simp [h])
  · exact .inr (.inl ⟨by simp [Formula.hasConstant, hc], h⟩)
  · exact .inr (.inr (h.widen hl hh))

theorem rows_sourced (s : Strategy) (positive : Bool) (next : Nat) (f : Formula) (row : Row)
    (hr : row ∈ (rows s positive next f).1) (l : Literal) (hl : l ∈ row) :
    Sourced f next (rows s positive next f).2 l.name := by
  induction f generalizing positive next row with
  | const value =>
    simp only [rows, List.mem_singleton] at hr
    subst hr
    rw [List.mem_singleton.mp hl]
    exact .inr (.inl ⟨rfl, value, rfl⟩)
  | var name =>
    simp only [rows, List.mem_singleton] at hr
    subst hr
    rw [List.mem_singleton.mp hl]
    exact .inl (by simp)
  | neg inner ih => exact ih (!positive) next row hr hl
  | bin op left right ihl ihr =>
    cases hu : op.under positive with
    | and =>
      rw [rows_and s positive next op left right hu] at hr ⊢
      have hn := next_le s positive next left
      have hn' := next_le s positive (rows s positive next left).2 right
      rcases List.mem_append.mp hr with hr | hr
      · exact (ihl _ _ row hr hl).left op right (Nat.le_refl _) hn'
      · exact (ihr _ _ row hr hl).right op left hn (Nat.le_refl _)
    | or =>
      by_cases hs : s = .replacing ∧ isCompound left ∧ isCompound right
      · rw [rows_split s positive next op left right hu hs] at hr ⊢
        have hn := next_le s positive (next + 1) left
        have hn' := next_le s positive (rows s positive (next + 1) left).2 right
        have hz : Introduced next (rows s positive (rows s positive (next + 1) left).2 right).2
            (auxiliary next) := (introduced_auxiliary _ _ _).mpr ⟨Nat.le_refl _, by omega⟩
        rcases List.mem_append.mp hr with hr | hr
        · obtain ⟨p, hp, rfl⟩ := List.mem_map.mp hr
          rcases List.mem_cons.mp hl with rfl | hl
          · exact .inr (.inr hz)
          · exact (ihl _ _ p hp hl).left op right (Nat.le_succ _) hn'
        · obtain ⟨p, hp, rfl⟩ := List.mem_map.mp hr
          rcases List.mem_cons.mp hl with rfl | hl
          · exact .inr (.inr hz)
          · exact (ihr _ _ p hp hl).right op left (by omega) (Nat.le_refl _)
      · rw [rows_distribute s positive next op left right hu hs] at hr ⊢
        have hn := next_le s positive next left
        have hn' := next_le s positive (rows s positive next left).2 right
        obtain ⟨p, hp, hm⟩ := List.mem_flatMap.mp hr
        obtain ⟨q, hq, rfl⟩ := List.mem_map.mp hm
        rcases List.mem_append.mp hl with hl | hl
        · exact (ihl _ _ p hp hl).left op right (Nat.le_refl _) hn'
        · exact (ihr _ _ q hq hl).right op left hn (Nat.le_refl _)

/-- Rows say no less than the formula, whatever the auxiliary variables are called. -/
theorem rows_sound (s : Strategy) (positive : Bool) (next : Nat) (f : Formula) (v : Valuation)
    (hc : f.hasConstant = true → Grounded v) (h : RowsHold v (rows s positive next f).1) :
    f.holds v = positive := by
  induction f generalizing positive next with
  | const value =>
    have hv := h _ (List.mem_singleton_self _)
    simpa [Literal.holds, hc rfl value, Formula.holds] using hv
  | var name =>
    have hv := h _ (List.mem_singleton_self _)
    simpa [Literal.holds, Formula.holds] using hv
  | neg inner ih =>
    rw [Formula.holds, ih (!positive) next hc h, Bool.not_not]
  | bin op left right ihl ihr =>
    have hcl : left.hasConstant = true → Grounded v :=
      fun hl => hc (by simp [Formula.hasConstant, hl])
    have hcr : right.hasConstant = true → Grounded v :=
      fun hr => hc (by simp [Formula.hasConstant, hr])
    rw [Formula.holds]
    cases hu : op.under positive with
    | and =>
      rw [rows_and s positive next op left right hu, rowsHold_append] at h
      rw [apply_under_and positive op _ _ hu]
      exact ⟨ihl positive _ hcl h.1, ihr positive _ hcr h.2⟩
    | or =>
      rw [apply_under_or positive op _ _ hu]
      by_cases hs : s = .replacing ∧ isCompound left ∧ isCompound right
      · rw [rows_split s positive next op left right hu hs, rowsHold_append, rowsHold_guarded,
          rowsHold_guarded] at h
        by_cases hz : v (auxiliary next) = true
        · have hl := h.1.resolve_left (by simp [Literal.holds, Literal.negative, hz])
          exact .inl (ihl positive _ hcl hl)
        · have hr := h.2.resolve_left (by simp [Literal.holds, Literal.positive, hz])
          exact .inr (ihr positive _ hcr hr)
      · rw [rows_distribute s positive next op left right hu hs, rowsHold_distribute] at h
        exact h.imp (ihl positive _ hcl) (ihr positive _ hcr)

/-- The second valuation differs from the first on auxiliary variables of the interval only. -/
def AgreeOutside (lo hi : Nat) (v w : Valuation) : Prop :=
  ∀ name, ¬Introduced lo hi name → w name = v name

theorem AgreeOutside.widen {lo hi lo' hi' : Nat} {v w : Valuation} (h : AgreeOutside lo hi v w)
    (hl : lo' ≤ lo) (hh : hi ≤ hi') : AgreeOutside lo' hi' v w :=
  fun name hn => h name (fun hi => hn (hi.widen hl hh))

theorem AgreeOutside.trans {lo hi : Nat} {u v w : Valuation} (hv : AgreeOutside lo hi u v)
    (hw : AgreeOutside lo hi v w) : AgreeOutside lo hi u w :=
  fun name hn => (hw name hn).trans (hv name hn)

theorem AgreeOutside.grounded {lo hi : Nat} {v w : Valuation} (h : AgreeOutside lo hi v w)
    (hg : Grounded v) : Grounded w := by
  intro b
  rw [h _ (constantName_not_introduced lo hi b), hg b]

/-- No name of the formula is an auxiliary variable from number `lo` on. -/
def Spares (f : Formula) (lo : Nat) : Prop :=
  ∀ name ∈ f.occurrences, ∀ k, lo ≤ k → name ≠ auxiliary k

theorem Spares.not_introduced {f : Formula} {lo lo' hi : Nat} {name : String} (h : Spares f lo)
    (hl : lo ≤ lo') (hn : name ∈ f.occurrences) : ¬Introduced lo' hi name := by
  rintro ⟨k, hk, _, he⟩
  exact h name hn k (Nat.le_trans hl hk) he

theorem AgreeOutside.holds {lo lo' hi : Nat} {v w : Valuation} (h : AgreeOutside lo' hi v w)
    (f : Formula) (hf : Spares f lo) (hl : lo ≤ lo') : f.holds w = f.holds v :=
  Formula.holds_of_agree w v f (fun name hn => h name (hf.not_introduced hl hn))

/-- Rows keep holding when only auxiliary variables of a later interval change. -/
theorem AgreeOutside.rowsHold {lo hi : Nat} {v w : Valuation} (h : AgreeOutside lo hi v w)
    (s : Strategy) (positive : Bool) (next : Nat) (f : Formula) (hf : Spares f next)
    (hlo : (rows s positive next f).2 ≤ lo) (hr : RowsHold v (rows s positive next f).1) :
    RowsHold w (rows s positive next f).1 := by
  apply rowsHold_transfer v w _ _ hr
  intro row hrow l hl
  have hn := next_le s positive next f
  refine (h l.name ?_).symm
  rcases rows_sourced s positive next f row hrow l hl with ho | ⟨_, b, hb⟩ | hi
  · exact hf.not_introduced (by omega) ho
  · rw [hb]
    exact constantName_not_introduced lo hi b
  · rintro ⟨k, hk, hk', he⟩
    rw [he, introduced_auxiliary] at hi
    omega

theorem Spares.later {f : Formula} {lo lo' : Nat} (h : Spares f lo) (hl : lo ≤ lo') :
    Spares f lo' :=
  fun name hn k hk => h name hn k (Nat.le_trans hl hk)

theorem Spares.operands {op : Connective} {left right : Formula} {lo : Nat}
    (h : Spares (.bin op left right) lo) : Spares left lo ∧ Spares right lo :=
  ⟨fun name hn => h name (by simp [hn]), fun name hn => h name (by simp [hn])⟩

/-- Every model of the formula extends to its rows by values for its auxiliary variables. -/
def Extends (s : Strategy) (positive : Bool) (next : Nat) (f : Formula) : Prop :=
  ∀ v, (f.hasConstant = true → Grounded v) → f.holds v = positive →
    ∃ w, AgreeOutside next (rows s positive next f).2 v w ∧ RowsHold w (rows s positive next f).1

section Extension

variable (s : Strategy) (positive : Bool) (next : Nat) (op : Connective) (left right : Formula)

/-- The left operand is extended first. What the right operand adds lies in a later interval and
leaves the rows of the left one alone. -/
theorem and_extends (hu : op.under positive = .and) (hf : Spares (.bin op left right) next)
    (hl : Extends s positive next left)
    (hr : Extends s positive (rows s positive next left).2 right) :
    Extends s positive next (.bin op left right) := by
  intro v hc h
  simp only [Formula.hasConstant, Bool.or_eq_true] at hc
  rw [Formula.holds, apply_under_and positive op _ _ hu] at h
  rw [rows_and s positive next op left right hu]
  have hn := next_le s positive next left
  have hn' := next_le s positive (rows s positive next left).2 right
  obtain ⟨w, hw, hrw⟩ := hl v (fun hl => hc (.inl hl)) h.1
  have hv : right.holds w = positive :=
    (hw.holds right hf.operands.2 (Nat.le_refl _)).trans h.2
  obtain ⟨x, hx, hrx⟩ := hr w (fun hr => hw.grounded (hc (.inr hr))) hv
  refine ⟨x, (hw.widen (Nat.le_refl _) hn').trans (hx.widen hn (Nat.le_refl _)), ?_⟩
  rw [rowsHold_append]
  exact ⟨hx.rowsHold s positive next left hf.operands.1 (Nat.le_refl _) hrw, hrx⟩

/-- The new variable decides for an operand that holds; the rows of the other operand are
satisfied by it. -/
theorem split_extends (hu : op.under positive = .or)
    (hs : s = .replacing ∧ isCompound left ∧ isCompound right)
    (hf : Spares (.bin op left right) next) (hl : Extends s positive (next + 1) left)
    (hr : Extends s positive (rows s positive (next + 1) left).2 right) :
    Extends s positive next (.bin op left right) := by
  intro v hc h
  simp only [Formula.hasConstant, Bool.or_eq_true] at hc
  rw [Formula.holds, apply_under_or positive op _ _ hu] at h
  rw [rows_split s positive next op left right hu hs]
  have hn := next_le s positive (next + 1) left
  have hn' := next_le s positive (rows s positive (next + 1) left).2 right
  have hset (b : Bool) : AgreeOutside next (rows s positive (rows s positive (next + 1)
      left).2 right).2 v (Function.update v (auxiliary next) b) := by
    intro name hi
    apply Function.update_of_ne
    rintro rfl
    exact hi ((introduced_auxiliary _ _ _).mpr ⟨Nat.le_refl _, by omega⟩)
  simp only [rowsHold_append, rowsHold_guarded]
  rcases h with h | h
  · have hv := ((hset true).holds left hf.operands.1 (Nat.le_refl _)).trans h
    obtain ⟨w, hw, hrw⟩ := hl _ (fun hl => (hset true).grounded (hc (.inl hl))) hv
    have hz : w (auxiliary next) = true := by
      rw [hw _ (by rw [introduced_auxiliary]; omega), Function.update_self]
    refine ⟨w, (hset true).trans (hw.widen (Nat.le_succ _) hn'), .inr hrw, .inl ?_⟩
    simp [Literal.holds, Literal.positive, hz]
  · have hv := ((hset false).holds right hf.operands.2 (Nat.le_refl _)).trans h
    obtain ⟨w, hw, hrw⟩ := hr _ (fun hr => (hset false).grounded (hc (.inr hr))) hv
    have hz : w (auxiliary next) = false := by
      rw [hw _ (by rw [introduced_auxiliary]; omega), Function.update_self]
    refine ⟨w, (hset false).trans (hw.widen (by omega) (Nat.le_refl _)), .inl ?_, .inr hrw⟩
    simp [Literal.holds, Literal.negative, hz]

theorem distribute_extends (hu : op.under positive = .or)
    (hs : ¬(s = .replacing ∧ isCompound left ∧ isCompound right))
    (hl : Extends s positive next left)
    (hr : Extends s positive (rows s positive next left).2 right) :
    Extends s positive next (.bin op left right) := by
  intro v hc h
  simp only [Formula.hasConstant, Bool.or_eq_true] at hc
  rw [Formula.holds, apply_under_or positive op _ _ hu] at h
  rw [rows_distribute s positive next op left right hu hs]
  have hn := next_le s positive next left
  have hn' := next_le s positive (rows s positive next left).2 right
  simp only [rowsHold_distribute]
  rcases h with h | h
  · obtain ⟨w, hw, hrw⟩ := hl v (fun hl => hc (.inl hl)) h
    exact ⟨w, hw.widen (Nat.le_refl _) hn', .inl hrw⟩
  · obtain ⟨w, hw, hrw⟩ := hr v (fun hr => hc (.inr hr)) h
    exact ⟨w, hw.widen hn (Nat.le_refl _), .inr hrw⟩

end Extension

theorem rows_extends (s : Strategy) (positive : Bool) (next : Nat) (f : Formula)
    (hf : Spares f next) : Extends s positive next f := by
  induction f generalizing positive next with
  | const value =>
    intro v hc h
    refine ⟨v, fun _ _ => rfl, ?_⟩
    have hv : value = positive := h
    subst hv
    simp [rows, RowsHold, Literal.holds, hc rfl value]
  | var name =>
    intro v _ h
    refine ⟨v, fun _ _ => rfl, ?_⟩
    have hv : v name = positive := h
    simp [rows, RowsHold, Literal.holds, hv]
  | neg inner ih =>
    intro v hc h
    apply ih (!positive) next hf v hc
    rw [← h, Formula.holds, Bool.not_not]
  | bin op left right ihl ihr =>
    obtain ⟨hfl, hfr⟩ := hf.operands
    cases hu : op.under positive with
    | and =>
      exact and_extends s positive next op left right hu hf (ihl positive next hfl)
        (ihr positive _ (hfr.later (next_le s positive next left)))
    | or =>
      by_cases hs : s = .replacing ∧ isCompound left ∧ isCompound right
      · have hn := next_le s positive (next + 1) left
        exact split_extends s positive next op left right hu hs hf
          (ihl positive _ (hfl.later (Nat.le_succ _))) (ihr positive _ (hfr.later (by omega)))
      · exact distribute_extends s positive next op left right hu hs (ihl positive next hfl)
          (ihr positive _ (hfr.later (next_le s positive next left)))

theorem constantRows_hold (v : Valuation) : RowsHold v constantRows ↔ Grounded v := by
  simp [RowsHold, constantRows, Grounded, Literal.holds, Literal.negative, Literal.positive]

end Sentential.Conversion

namespace Sentential.Converter
open Conversion

theorem convert_rows (c : Converter) (f : Formula) :
    (c.convert f).1.rows =
      (if f.hasConstant then constantRows else []) ++ (rows c.strategy true c.next f).1 := by
  unfold convert
  by_cases hc : f.hasConstant = true <;> simp [hc]

theorem convert_holds (c : Converter) (f : Formula) (v : Valuation) :
    (c.convert f).1.holds v = true ↔
      (f.hasConstant = true → Grounded v) ∧ RowsHold v (rows c.strategy true c.next f).1 := by
  rw [Table.holds_iff, convert_rows]
  by_cases hc : f.hasConstant = true
  · rw [if_pos hc]
    simp only [hc, forall_const, ← constantRows_hold, ← rowsHold_append]
    rfl
  · rw [if_neg hc]
    simp only [hc, Bool.false_eq_true, false_imp_iff, true_and]
    rfl

theorem convert_next (c : Converter) (f : Formula) : c.next ≤ (c.convert f).2.next :=
  next_le c.strategy true c.next f

theorem convert_distributing (c : Converter) (hc : c.strategy = .distributing) (f : Formula) :
    (c.convert f).2 = c := by
  have hn : (rows c.strategy true c.next f).2 = c.next := by rw [hc, rows_distributing_next]
  show Converter.mk c.strategy (rows c.strategy true c.next f).2 = c
  rw [hn]

theorem convert_sound (c : Converter) (f : Formula) (v : Valuation)
    (h : (c.convert f).1.holds v = true) : f.holds v = true := by
  obtain ⟨hc, hr⟩ := (convert_holds c f v).mp h
  exact rows_sound c.strategy true c.next f v hc hr

theorem convert_extends (c : Converter) (f : Formula) (hf : Spares f c.next) (v : Valuation)
    (hg : Grounded v) (h : f.holds v = true) :
    ∃ w, AgreeOutside c.next (c.convert f).2.next v w ∧ (c.convert f).1.holds w = true := by
  obtain ⟨w, hw, hr⟩ := rows_extends c.strategy true c.next f hf v (fun _ => hg) h
  exact ⟨w, hw, (convert_holds c f w).mpr ⟨fun _ => hw.grounded hg, hr⟩⟩

/-- A converted table does not depend on the auxiliary variables of later conversions. -/
theorem convert_frame (c : Converter) (f : Formula) (hf : Spares f c.next) (lo hi : Nat)
    (hl : (c.convert f).2.next ≤ lo) (v w : Valuation) (h : AgreeOutside lo hi v w)
    (hv : (c.convert f).1.holds v = true) : (c.convert f).1.holds w = true := by
  rw [convert_holds] at hv ⊢
  exact ⟨fun hc => h.grounded (hv.1 hc), h.rowsHold c.strategy true c.next f hf hl hv.2⟩

end Sentential.Converter
