import Sentential.Formula.Gauge

/-!
# Flattening with a stack

The operands of a chain are listed without recursion: a stack holds the formulas
that are still to be looked at, the leftmost one on top. A chain on top of the
stack makes room for its two operands; any other formula is an operand itself.
-/

set_option autoImplicit false

namespace Sentential

/-- The formulas still to be looked at, the next one first, and the operands found so far. -/
structure Flattening where
  stack : List Formula
  found : List Formula
  deriving DecidableEq, Repr

namespace Flattening

/-- Looks at the top of the stack; there is nothing to do once the stack is empty. -/
def step (op : Connective) : Flattening → Option Flattening
  | ⟨[], _⟩ => none
  | ⟨.bin p left right :: stack, found⟩ =>
    if p = op then some ⟨left :: right :: stack, found⟩
    else some ⟨stack, found ++ [.bin p left right]⟩
  | ⟨f :: stack, found⟩ => some ⟨stack, found ++ [f]⟩

/-- The number of nodes on the stack. -/
def nodes (s : Flattening) : Nat :=
  s.stack.foldr (fun f n => f.size + n) 0

theorem step_cases {op : Connective} {s t : Flattening} (h : s.step op = some t) :
    (∃ left right stack, s.stack = .bin op left right :: stack ∧
      t = ⟨left :: right :: stack, s.found⟩) ∨
    ∃ f stack, s.stack = f :: stack ∧ f.connective? ≠ some op ∧ t = ⟨stack, s.found ++ [f]⟩ := by
  obtain ⟨stack, found⟩ := s
  cases stack with
  | nil => cases h
  | cons f stack =>
    have leaf (hs : step op ⟨f :: stack, found⟩ = some ⟨stack, found ++ [f]⟩) :
        t = ⟨stack, found ++ [f]⟩ := (Option.some.inj (hs.symm.trans h)).symm
    cases f with
    | const value => exact .inr ⟨_, stack, rfl, by simp [Formula.connective?], leaf rfl⟩
    | var name => exact .inr ⟨_, stack, rfl, by simp [Formula.connective?], leaf rfl⟩
    | neg inner => exact .inr ⟨_, stack, rfl, by simp [Formula.connective?], leaf rfl⟩
    | bin p left right =>
      by_cases hp : p = op
      · subst hp
        rw [step, if_pos rfl] at h
        exact .inl ⟨left, right, stack, rfl, (Option.some.inj h).symm⟩
      · refine .inr ⟨_, stack, rfl, by simpa [Formula.connective?] using hp, leaf ?_⟩
        rw [step, if_neg hp]

/-- Every step takes one node off the stack or more. -/
theorem step_nodes {op : Connective} {s t : Flattening} (h : s.step op = some t) :
    t.nodes < s.nodes := by
  rcases step_cases h with ⟨left, right, stack, hs, rfl⟩ | ⟨f, stack, hs, _, rfl⟩
  · simp only [nodes, hs, List.foldr_cons, Formula.size, Gauge.size]
    omega
  · have hf := f.size_pos
    simp only [nodes, hs, List.foldr_cons]
    omega

/-- The operands that are found until the stack is empty. -/
def run (op : Connective) (s : Flattening) : List Formula :=
  match _h : s.step op with
  | none => s.found
  | some t => t.run op
termination_by s.nodes
decreasing_by exact step_nodes _h

end Flattening

/-- The operands of a formula under `op`, found with a stack. -/
def Formula.flatten (op : Connective) (f : Formula) : List Formula :=
  Flattening.run op ⟨[f], []⟩

end Sentential
