import Sentential.Proofs.Clause.Rules

/-!
# The names in converted tables

A table has every name of its formula, the names of the constants if the formula
has a constant, every auxiliary variable that was numbered for it, and nothing
else. That nothing is lost rests on every formula having at least one row: a row
that is joined with the rows of another operand is then found again in the result.
The numbers of successive conversions follow one another, so no auxiliary variable
belongs to two of them. Nothing is assumed about the names in the formulas.
-/

set_option autoImplicit false

namespace Sentential
namespace Conversion

/-- Some literal of the rows has this name. -/
def Mentions (rs : List Row) (name : String) : Prop :=
  ∃ row ∈ rs, ∃ l ∈ row, l.name = name

theorem mentions_append (rs ss : List Row) (name : String) :
    Mentions (rs ++ ss) name ↔ Mentions rs name ∨ Mentions ss name := by
  simp only [Mentions, List.mem_append, or_and_right, exists_or]

theorem mentions_guarded (l : Literal) (rs : List Row) (hrs : rs ≠ []) (name : String) :
    Mentions (rs.map (fun row => l :: row)) name ↔ l.name = name ∨ Mentions rs name := by
  obtain ⟨row, hrow⟩ := List.exists_mem_of_ne_nil rs hrs
  constructor
  · rintro ⟨_, hr, m, hm, hn⟩
    obtain ⟨p, hp, rfl⟩ := List.mem_map.mp hr
    rcases List.mem_cons.mp hm with rfl | hm
    · exact .inl hn
    · exact .inr ⟨p, hp, m, hm, hn⟩
  · rintro (hn | ⟨p, hp, m, hm, hn⟩)
    · exact ⟨l :: row, List.mem_map.mpr ⟨row, hrow, rfl⟩, l, by simp, hn⟩
    · exact ⟨l :: p, List.mem_map.mpr ⟨p, hp, rfl⟩, m, by simp [hm], hn⟩

theorem mem_distribute (rs ss : List Row) (row : Row) :
    row ∈ distribute rs ss ↔ ∃ p ∈ rs, ∃ q ∈ ss, p ++ q = row := by
  simp only [distribute, List.mem_flatMap, List.mem_map]

/-- No literal is lost as long as there is a row to join with. -/
theorem mentions_distribute (rs ss : List Row) (hrs : rs ≠ []) (hss : ss ≠ []) (name : String) :
    Mentions (distribute rs ss) name ↔ Mentions rs name ∨ Mentions ss name := by
  obtain ⟨p₀, hp₀⟩ := List.exists_mem_of_ne_nil rs hrs
  obtain ⟨q₀, hq₀⟩ := List.exists_mem_of_ne_nil ss hss
  constructor
  · rintro ⟨_, hr, l, hl, hn⟩
    obtain ⟨p, hp, q, hq, rfl⟩ := (mem_distribute rs ss _).mp hr
    exact (List.mem_append.mp hl).imp (fun hl => ⟨p, hp, l, hl, hn⟩)
      (fun hl => ⟨q, hq, l, hl, hn⟩)
  · rintro (⟨p, hp, l, hl, hn⟩ | ⟨q, hq, l, hl, hn⟩)
    · exact ⟨p ++ q₀, (mem_distribute rs ss _).mpr ⟨p, hp, q₀, hq₀, rfl⟩, l, by simp [hl], hn⟩
    · exact ⟨p₀ ++ q, (mem_distribute rs ss _).mpr ⟨p₀, hp₀, q, hq, rfl⟩, l, by simp [hl], hn⟩

theorem rows_ne_nil (s : Strategy) (positive : Bool) (next : Nat) (f : Formula) :
    (rows s positive next f).1 ≠ [] := by
  induction f generalizing positive next with
  | const => simp [rows]
  | var => simp [rows]
  | neg inner ih => exact ih (!positive) next
  | bin op left right ihl ihr =>
    cases hu : op.under positive with
    | and =>
      rw [rows_and s positive next op left right hu]
      simp [ihl positive next]
    | or =>
      by_cases hs : s = .replacing ∧ isCompound left ∧ isCompound right
      · rw [rows_split s positive next op left right hu hs]
        simp [ihl positive (next + 1)]
      · rw [rows_distribute s positive next op left right hu hs]
        obtain ⟨p, hp⟩ := List.exists_mem_of_ne_nil _ (ihl positive next)
        obtain ⟨q, hq⟩ := List.exists_mem_of_ne_nil _
          (ihr positive (rows s positive next left).2)
        exact List.ne_nil_of_mem ((mem_distribute _ _ _).mpr ⟨p, hp, q, hq, rfl⟩)

theorem introduced_split {lo mid hi : Nat} {name : String} (h : Introduced lo hi name) :
    Introduced lo mid name ∨ Introduced mid hi name := by
  obtain ⟨k, hl, hh, he⟩ := h
  by_cases hk : k < mid
  · exact .inl ⟨k, hl, hk, he⟩
  · exact .inr ⟨k, by omega, hh, he⟩

theorem introduced_first {lo hi : Nat} {name : String} (h : Introduced lo hi name) :
    auxiliary lo = name ∨ Introduced (lo + 1) hi name := by
  obtain ⟨k, hl, hh, he⟩ := h
  by_cases hk : k = lo
  · exact .inl (by rw [he, hk])
  · exact .inr ⟨k, by omega, hh, he⟩

/-- Every name of the formula and every number that was used is in some row. -/
theorem rows_mention (s : Strategy) (positive : Bool) (next : Nat) (f : Formula) (name : String)
    (h : name ∈ f.occurrences ∨ Introduced next (rows s positive next f).2 name) :
    Mentions (rows s positive next f).1 name := by
  induction f generalizing positive next with
  | const value =>
    rcases h with h | ⟨k, hl, hh, _⟩
    · cases h
    · exact absurd hh (Nat.not_lt.mpr hl)
  | var other =>
    rcases h with h | ⟨k, hl, hh, _⟩
    · rw [Formula.occurrences_var, List.mem_singleton] at h
      simp [rows, Mentions, h]
    · exact absurd hh (Nat.not_lt.mpr hl)
  | neg inner ih => exact ih (!positive) next h
  | bin op left right ihl ihr =>
    rw [Formula.occurrences_bin, List.mem_append] at h
    -- the right operand goes on with the number at which the left one stopped
    have hoperands (first : Nat)
        (h : (name ∈ left.occurrences ∨ name ∈ right.occurrences) ∨ Introduced first
          (rows s positive (rows s positive first left).2 right).2 name) :
        Mentions (rows s positive first left).1 name ∨
          Mentions (rows s positive (rows s positive first left).2 right).1 name := by
      rcases h with (h | h) | h
      · exact .inl (ihl positive first (.inl h))
      · exact .inr (ihr positive _ (.inl h))
      · exact (introduced_split h).imp (fun h => ihl positive first (.inr h))
          (fun h => ihr positive _ (.inr h))
    cases hu : op.under positive with
    | and =>
      rw [rows_and s positive next op left right hu] at h ⊢
      rw [mentions_append]
      exact hoperands next h
    | or =>
      by_cases hs : s = .replacing ∧ isCompound left ∧ isCompound right
      · rw [rows_split s positive next op left right hu hs] at h ⊢
        rw [mentions_append, mentions_guarded _ _ (rows_ne_nil _ _ _ _),
          mentions_guarded _ _ (rows_ne_nil _ _ _ _)]
        rcases h with h | h
        · exact (hoperands (next + 1) (.inl h)).imp .inr .inr
        · rcases introduced_first h with h | h
          · exact .inl (.inl h)
          · exact (hoperands (next + 1) (.inr h)).imp .inr .inr
      · rw [rows_distribute s positive next op left right hu hs] at h ⊢
        rw [mentions_distribute _ _ (rows_ne_nil _ _ _ _) (rows_ne_nil _ _ _ _)]
        exact hoperands next h

end Conversion
open Conversion

namespace Converter

theorem mem_convert_names (c : Converter) (f : Formula) (name : String) :
    name ∈ (c.convert f).1.names ↔ Sourced f c.next (c.convert f).2.next name := by
  have hsound (h : Mentions (rows c.strategy true c.next f).1 name) :
      Sourced f c.next (c.convert f).2.next name := by
    obtain ⟨row, hr, l, hl, rfl⟩ := h
    exact rows_sourced c.strategy true c.next f row hr l hl
  have hmention := rows_mention c.strategy true c.next f name
  have hconstants : Mentions constantRows name ↔ ∃ b, name = constantName b := by
    simp [Mentions, constantRows, Literal.negative, Literal.positive, eq_comm]
  rw [Table.mem_names]
  show Mentions (c.convert f).1.rows name ↔ _
  rw [convert_rows]
  by_cases hc : f.hasConstant = true
  · rw [if_pos hc, mentions_append, hconstants]
    constructor
    · rintro (h | h)
      · exact .inr (.inl ⟨hc, h⟩)
      · exact hsound h
    · rintro (h | ⟨_, h⟩ | h)
      · exact .inr (hmention (.inl h))
      · exact .inl h
      · exact .inr (hmention (.inr h))
  · rw [if_neg hc, List.nil_append]
    refine ⟨hsound, ?_⟩
    rintro (h | ⟨h, _⟩ | h)
    · exact hmention (.inl h)
    · exact absurd h hc
    · exact hmention (.inr h)

end Converter

/-- A conversion, with the number of the next auxiliary variable before and after it. -/
structure Converted where
  formula : Formula
  table : Table
  before : Nat
  after : Nat
  deriving DecidableEq, Repr

namespace Converter

/-- The conversions of formulas one after the other. -/
def conversions (c : Converter) : List Formula → List Converted
  | [] => []
  | f :: fs =>
    ⟨f, (c.convert f).1, c.next, (c.convert f).2.next⟩ :: conversions (c.convert f).2 fs

theorem map_formula_conversions (c : Converter) (fs : List Formula) :
    (c.conversions fs).map Converted.formula = fs := by
  induction fs generalizing c with
  | nil => rfl
  | cons f fs ih => rw [conversions, List.map_cons, ih]

/-- Each conversion starts with the number at which the one before it stopped. -/
theorem conversions_consecutive (c : Converter) (fs : List Formula) :
    ∃ last, (c.conversions fs).map Converted.before ++ [last] =
      c.next :: (c.conversions fs).map Converted.after := by
  induction fs generalizing c with
  | nil => exact ⟨c.next, rfl⟩
  | cons f fs ih =>
    obtain ⟨last, h⟩ := ih (c.convert f).2
    refine ⟨last, ?_⟩
    rw [conversions, List.map_cons, List.map_cons, List.cons_append, h]

theorem conversions_single (c : Converter) (fs : List Formula) :
    ∀ r ∈ c.conversions fs,
      (Converter.mk c.strategy r.before).convert r.formula = (r.table, ⟨c.strategy, r.after⟩) := by
  induction fs generalizing c with
  | nil => simp [conversions]
  | cons f fs ih =>
    rw [conversions, List.forall_mem_cons]
    exact ⟨rfl, ih (c.convert f).2⟩

theorem conversions_later (c : Converter) (fs : List Formula) :
    ∀ r ∈ c.conversions fs, c.next ≤ r.before := by
  induction fs generalizing c with
  | nil => simp [conversions]
  | cons f fs ih =>
    rw [conversions, List.forall_mem_cons]
    exact ⟨Nat.le_refl _, fun r hr => Nat.le_trans (c.convert_next f) (ih _ r hr)⟩

theorem conversions_disjoint (c : Converter) (fs : List Formula) :
    (c.conversions fs).Pairwise (fun r q => ∀ name,
      Introduced r.before r.after name → ¬Introduced q.before q.after name) := by
  induction fs generalizing c with
  | nil => exact .nil
  | cons f fs ih =>
    rw [conversions, List.pairwise_cons]
    refine ⟨?_, ih _⟩
    rintro q hq _ ⟨k, _, hk, rfl⟩ hi
    have hlater := conversions_later (c.convert f).2 fs q hq
    have hk : k < (c.convert f).2.next := hk
    rw [introduced_auxiliary] at hi
    omega

/-- Formulas that one converter converts one after the other all get a table. Its names are those of
the formula, those of both constants if the formula has a constant, and the auxiliary variables
with the numbers from the counter before the conversion up to the counter after it. So no auxiliary
variable is introduced by two conversions. -/
theorem auxiliary_names_never_repeat (c : Converter) (fs : List Formula) :
    (c.conversions fs).map Converted.formula = fs ∧
    (∃ last, (c.conversions fs).map Converted.before ++ [last] =
      c.next :: (c.conversions fs).map Converted.after) ∧
    (∀ r ∈ c.conversions fs,
      (Converter.mk c.strategy r.before).convertByRules r.formula =
        .ok (r.table, ⟨c.strategy, r.after⟩) ∧
      ∀ name, name ∈ r.table.names ↔ name ∈ r.formula.names ∨
        (r.formula.hasConstant = true ∧ ∃ b, name = constantName b) ∨
        ∃ k, r.before ≤ k ∧ k < r.after ∧ name = auxiliary k) ∧
    (c.conversions fs).Pairwise (fun r q => ∀ j k, r.before ≤ j → j < r.after →
      q.before ≤ k → k < q.after → auxiliary j ≠ auxiliary k) := by
  refine ⟨c.map_formula_conversions fs, c.conversions_consecutive fs, ?_, ?_⟩
  · intro r hr
    have hsingle := c.conversions_single fs r hr
    refine ⟨by rw [convertByRules_eq, hsingle], fun name => ?_⟩
    have hnames := (Converter.mk c.strategy r.before).mem_convert_names r.formula name
    rw [hsingle] at hnames
    rw [hnames, Formula.mem_names]
    rfl
  · refine (c.conversions_disjoint fs).imp (fun hd j k hj hj' hk hk' he => ?_)
    exact hd (auxiliary j) ⟨j, hj, hj', rfl⟩ ⟨k, hk, hk', he⟩

/-- The second of two formulas that are both split uses the second number only. -/
theorem auxiliary_names_never_repeat_second :
    ∃ r ∈ (Converter.mk .replacing 1).conversions
        [.or (.and (.var "a") (.var "b")) (.and (.var "c") (.var "d")),
          .neg (.and (.or (.var "a") (.const true)) (.or (.var "c") (.var "d")))],
      r.formula = .neg (.and (.or (.var "a") (.const true)) (.or (.var "c") (.var "d"))) ∧
        r.before = 2 ∧ r.after = 3 ∧ auxiliary 2 ∈ r.table.names ∧ auxiliary 1 ∉ r.table.names ∧
        constantName false ∈ r.table.names := by
  obtain ⟨_, _, hnames, _⟩ := auxiliary_names_never_repeat (.mk .replacing 1)
    [.or (.and (.var "a") (.var "b")) (.and (.var "c") (.var "d")),
      .neg (.and (.or (.var "a") (.const true)) (.or (.var "c") (.var "d")))]
  obtain ⟨r, hr, hf, hb, ha⟩ : ∃ r ∈ (Converter.mk .replacing 1).conversions
      [.or (.and (.var "a") (.var "b")) (.and (.var "c") (.var "d")),
        .neg (.and (.or (.var "a") (.const true)) (.or (.var "c") (.var "d")))],
      r.formula = .neg (.and (.or (.var "a") (.const true)) (.or (.var "c") (.var "d"))) ∧
        r.before = 2 ∧ r.after = 3 :=
    ⟨_, List.mem_cons_of_mem _ (List.mem_singleton_self _), rfl, rfl, rfl⟩
  refine ⟨r, hr, hf, hb, ha, ?_, ?_, ?_⟩
  · exact ((hnames r hr).2 _).mpr (.inr (.inr ⟨2, by omega, by omega, rfl⟩))
  · rw [(hnames r hr).2, hf, Formula.mem_names]
    rintro (h | ⟨_, b, h⟩ | ⟨k, hk, _, h⟩)
    · revert h
      decide
    · exact auxiliary_ne_constantName 1 b h
    · have := auxiliary_injective 1 k h
      omega
  · exact ((hnames r hr).2 _).mpr (.inr (.inl ⟨by rw [hf]; rfl, false, rfl⟩))

end Converter

end Sentential
