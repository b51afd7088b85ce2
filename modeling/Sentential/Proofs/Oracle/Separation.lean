import Sentential.Proofs.Oracle.Question

/-!
# Tables of separate converters

Every new converter counts its auxiliary variables from the same number, so the
tables of two converters may share some of them. A common model of two such
tables is still one of both formulas, and the converse holds if one of the
converters did not have to introduce a variable; distribution never does. If
both did, then the shared variable ties an operand of one formula to an operand
of the other, and a common model may be lost.
-/

set_option autoImplicit false

namespace Sentential
open Conversion

theorem Table.compatible_comm (t u : Table) : t.Compatible u ↔ u.Compatible t :=
  exists_congr (fun _ => and_comm)

/-- The converter introduces no auxiliary variable for the formula. -/
def Converter.Frugal (c : Converter) (f : Formula) : Prop :=
  (c.convert f).2 = c

theorem Converter.frugal_of_distributing (c : Converter) (hc : c.strategy = .distributing)
    (f : Formula) : c.Frugal f :=
  c.convert_distributing hc f

theorem convert_compatible (c : Converter) (b f : Formula) (hb : b.Unreserved)
    (hf : f.Unreserved) (h : c.Frugal b) :
    (c.convert b).1.Compatible (c.convert f).1 ↔ ∃ v, b.holds v = true ∧ f.holds v = true := by
  apply compatible_convert _ _ _ (convert_stands c b hb) c _ f hf
  exact Nat.le_of_eq (congrArg Converter.next h)

/-- The answer of a new solver over the base `b` about `f`, each formula being converted by a
converter of its own. -/
def Settings.answerApart (s : Settings) (b f : Formula) : Except SolverError Bool :=
  match s.createSolver (some (s.converter.convert b).1) with
  | .error e => .error e
  | .ok solver => (Solver.ask solver (s.converter.convert f).1).1

/-- The tables of the base and of the question. -/
def Settings.tablesApart (s : Settings) (b f : Formula) : List Table :=
  [(s.converter.convert b).1, (s.converter.convert f).1]

theorem answerApart_compatible (s : Settings) (hs : s.solver = .dpll) (b f : Formula) :
    ∃ answer, s.answerApart b f = .ok answer ∧
      (Numberable ((s.tablesApart b f).flatMap Table.names) →
        (answer = true ↔ (s.converter.convert b).1.Compatible (s.converter.convert f).1)) := by
  obtain ⟨bs, hr, hall⟩ := layered_replies (some (s.converter.convert b).1)
    (if s.remember then some s.capacity else none) [(s.converter.convert f).1]
  obtain ⟨answer, bs, rfl, ha, hnil⟩ := List.map_eq_cons_iff.mp hr.symm
  refine ⟨answer, ?_, fun hnames => ?_⟩
  · rw [Settings.answerApart, Settings.createSolver, hs, SolverKind.create]
    exact ha.symm
  · cases hall hnames with
    | cons hexact _ => exact hexact

/-- With separate converters the solver never fails. As long as the two tables have fewer than 2³¹
names, what it finds satisfiable has a common model, and it finds every common model if one of the
two conversions introduces no auxiliary variable, which is always so under distribution. -/
theorem separate_conversions_exact (s : Settings) (hs : s.solver = .dpll) (b f : Formula)
    (hb : b.Unreserved) (hf : f.Unreserved) :
    ∃ answer, s.answerApart b f = .ok answer ∧
      (Numberable ((s.tablesApart b f).flatMap Table.names) →
        (answer = true → ∃ v, b.holds v = true ∧ f.holds v = true) ∧
        (s.strategy = .distributing ∨ s.converter.Frugal b ∨ s.converter.Frugal f →
          (answer = true ↔ ∃ v, b.holds v = true ∧ f.holds v = true))) := by
  obtain ⟨answer, ha, hexact⟩ := answerApart_compatible s hs b f
  refine ⟨answer, ha, fun hnames => ?_⟩
  have hexact := hexact hnames
  constructor
  · intro h
    obtain ⟨v, hbv, hfv⟩ := hexact.mp h
    exact ⟨v, s.converter.convert_sound b v hbv, s.converter.convert_sound f v hfv⟩
  · intro h
    rw [hexact]
    rcases h with hd | hb' | hf'
    · exact convert_compatible s.converter b f hb hf (s.converter.frugal_of_distributing hd b)
    · exact convert_compatible s.converter b f hb hf hb'
    · rw [Table.compatible_comm, convert_compatible s.converter f b hf hb hf']
      exact exists_congr (fun _ => and_comm)

/-- A base that needs an auxiliary variable and a question that needs none. -/
theorem separate_conversions_exact_literal :
    Settings.answerApart { strategy := .replacing } (.difference (.var "a") (.var "b"))
      (.or (.var "a") (.and (.var "b") (.var "c"))) = .ok true := by
  obtain ⟨answer, ha, hexact⟩ := separate_conversions_exact { strategy := .replacing } rfl
    (.difference (.var "a") (.var "b")) (.or (.var "a") (.and (.var "b") (.var "c")))
    (Formula.unreserved_of_heads _ (by decide)) (Formula.unreserved_of_heads _ (by decide))
  have hfound := (hexact (numberable_of_literals _ (by decide))).2 (.inr (.inr rfl))
  rw [ha, hfound.mpr ⟨fun name => name == "a", by decide, by decide⟩]

/-- The auxiliary variable of a disjunction decides which operand has to be true. -/
theorem split_sound (c : Converter) (hc : c.strategy = .replacing) (p q : Formula)
    (hp : isCompound p = true) (hq : isCompound q = true) (v : Valuation)
    (h : (c.convert (.or p q)).1.holds v = true) :
    if v (auxiliary c.next) = true then p.holds v = true else q.holds v = true := by
  obtain ⟨hground, hrows⟩ := (c.convert_holds (.or p q) v).mp h
  simp only [Formula.hasConstant, Bool.or_eq_true, or_imp] at hground
  rw [rows_split _ _ _ _ _ _ rfl ⟨hc, hp, hq⟩, rowsHold_append, rowsHold_guarded,
    rowsHold_guarded] at hrows
  by_cases hz : v (auxiliary c.next) = true
  · have hl := hrows.1.resolve_left (by simp [Literal.holds, Literal.negative, hz])
    rw [if_pos hz]
    exact rows_sound _ true _ p v hground.1 hl
  · have hr := hrows.2.resolve_left (by simp [Literal.holds, Literal.positive, hz])
    rw [if_neg hz]
    exact rows_sound _ true _ q v hground.2 hr

/-- Disjunctions that converters split separately are tied together: first operand with first, or
second with second. -/
theorem split_compatible (c : Converter) (hc : c.strategy = .replacing) (p q p' q' : Formula)
    (hp : isCompound p = true) (hq : isCompound q = true) (hp' : isCompound p' = true)
    (hq' : isCompound q' = true)
    (h : (c.convert (.or p q)).1.Compatible (c.convert (.or p' q')).1) :
    ∃ v, (p.holds v = true ∧ p'.holds v = true) ∨ (q.holds v = true ∧ q'.holds v = true) := by
  obtain ⟨v, hb, hf⟩ := h
  have hb := split_sound c hc p q hp hq v hb
  have hf := split_sound c hc p' q' hp' hq' v hf
  by_cases hz : v (auxiliary c.next) = true
  · rw [if_pos hz] at hb hf
    exact ⟨v, .inl ⟨hb, hf⟩⟩
  · rw [if_neg hz] at hb hf
    exact ⟨v, .inr ⟨hb, hf⟩⟩

/-- Two ways to write that `a` and `b` are equivalent, with the operands exchanged: the question is
found unsatisfiable under a base that says the same. -/
theorem separate_conversions_clash :
    (Formula.or (.and (.var "a") (.var "b")) (.and (.neg (.var "a")) (.neg (.var "b")))).Unreserved ∧
    (Formula.or (.and (.neg (.var "a")) (.neg (.var "b"))) (.and (.var "a") (.var "b"))).Unreserved ∧
    (∃ v,
      (Formula.or (.and (.var "a") (.var "b"))
        (.and (.neg (.var "a")) (.neg (.var "b")))).holds v = true ∧
      (Formula.or (.and (.neg (.var "a")) (.neg (.var "b")))
        (.and (.var "a") (.var "b"))).holds v = true) ∧
    Settings.answerApart { strategy := .replacing }
      (.or (.and (.var "a") (.var "b")) (.and (.neg (.var "a")) (.neg (.var "b"))))
      (.or (.and (.neg (.var "a")) (.neg (.var "b"))) (.and (.var "a") (.var "b"))) =
        .ok false := by
  refine ⟨Formula.unreserved_of_heads _ (by decide), Formula.unreserved_of_heads _ (by decide),
    ⟨fun _ => true, by decide, by decide⟩, ?_⟩
  obtain ⟨answer, ha, hexact⟩ := answerApart_compatible { strategy := .replacing } rfl
    (.or (.and (.var "a") (.var "b")) (.and (.neg (.var "a")) (.neg (.var "b"))))
    (.or (.and (.neg (.var "a")) (.neg (.var "b"))) (.and (.var "a") (.var "b")))
  have hn : answer = false := by
    rw [Bool.eq_false_iff]
    intro h
    have hexact := hexact (numberable_of_literals _ (by decide))
    obtain ⟨v, hv⟩ := split_compatible _ rfl _ _ _ _ rfl rfl rfl rfl (hexact.mp h)
    simp only [Formula.holds, Connective.apply] at hv
    cases ha : v "a" <;> simp [ha] at hv
  rw [ha, hn]

end Sentential
