import Sentential.Formula.Basic

/-!
# Chains of one connective

A chain is the list of operands of nested uses of one connective, read from
left to right. `Formula.terms` lists a formula's chain and `Connective.join?`
nests a list to the left again; the first undoes the second on every list
without a member that is itself a chain.
-/

set_option autoImplicit false

namespace Sentential

namespace Formula

/-- The chain of `f` under `op`, in front of `rest`. -/
def termsOnto (op : Connective) : Formula → List Formula → List Formula
  | .bin p left right, rest =>
    if p = op then left.termsOnto op (right.termsOnto op rest)
    else .bin p left right :: rest
  | f, rest => f :: rest

/-- The operands of `f` seen as a chain of `op`; any other formula is its own single operand. -/
def terms (op : Connective) (f : Formula) : List Formula :=
  f.termsOnto op []

theorem termsOnto_eq (op : Connective) (f : Formula) (rest : List Formula) :
    f.termsOnto op rest = f.terms op ++ rest := by
  induction f generalizing rest with
  | const => rfl
  | var => rfl
  | neg => rfl
  | bin p left right ihl ihr =>
    simp only [terms, termsOnto] at *
    split
    · rw [ihl, ihl (right.termsOnto op []), ihr, List.append_assoc]
    · rfl

@[simp] theorem terms_const (op : Connective) (value : Bool) :
    (const value).terms op = [const value] := rfl

@[simp] theorem terms_var (op : Connective) (name : String) :
    (var name).terms op = [var name] := rfl

@[simp] theorem terms_neg (op : Connective) (f : Formula) :
    (neg f).terms op = [neg f] := rfl

@[simp] theorem terms_bin_same (op : Connective) (left right : Formula) :
    (bin op left right).terms op = left.terms op ++ right.terms op := by
  simp only [terms, termsOnto, if_pos]
  exact left.termsOnto_eq op _

theorem terms_bin_other {op p : Connective} (left right : Formula) (h : p ≠ op) :
    (bin p left right).terms op = [bin p left right] := by
  simp [terms, termsOnto, h]

theorem terms_of_connective_ne {op : Connective} {f : Formula} (h : f.connective? ≠ some op) :
    f.terms op = [f] := by
  cases f with
  | const => rfl
  | var => rfl
  | neg => rfl
  | bin p left right => exact terms_bin_other left right (by simpa [connective?] using h)

end Formula

/-- Nests a list of operands to the left; there is nothing to nest in an empty list. -/
def Connective.join? (op : Connective) : List Formula → Option Formula
  | [] => none
  | first :: rest => some (rest.foldl (.bin op) first)

/-- Nests a list of operands to the left, the empty list being the neutral constant. -/
def Connective.join (op : Connective) (ts : List Formula) : Formula :=
  (op.join? ts).getD (.const op.neutral)

end Sentential
