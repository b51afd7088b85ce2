import Sentential.Formula.Outline

/-!
# A printer of outlines

The printer keeps the indentation that the next line gets. It adds a tab before
it prints an operand and takes one off afterwards, so it can print any number of
formulas one after the other.
-/

set_option autoImplicit false

namespace Sentential

structure Printer where
  indent : String := ""
  deriving DecidableEq, Repr

namespace Printer

def deeper (p : Printer) : Printer :=
  ⟨p.indent.push '\t'⟩

/-- Without the last tab, if there is one. -/
def back (p : Printer) : Printer :=
  ⟨String.ofList p.indent.toList.dropLast⟩

def line (p : Printer) (content : String) : String :=
  p.indent ++ content

/-- The text of a formula from the current indentation on, and the printer afterwards. -/
def print (p : Printer) : Formula → String × Printer
  | .const true => (p.line "true", p)
  | .const false => (p.line "false", p)
  | .var name => (p.line name, p)
  | .neg inner =>
    let (operand, q) := p.deeper.print inner
    let q := q.back
    (p.line "!(\n" ++ operand ++ "\n" ++ q.line ")", q)
  | .bin op left right =>
    let (first, q) := p.deeper.print left
    let q := q.back
    let (second, r) := q.deeper.print right
    (first ++ "\n" ++ q.line op.symbol ++ "\n" ++ second, r.back)

/-- The texts of several formulas, printed one after the other. -/
def printAll (p : Printer) : List Formula → List String × Printer
  | [] => ([], p)
  | f :: fs =>
    let (text, q) := p.print f
    let (texts, r) := q.printAll fs
    (text :: texts, r)

@[simp] theorem back_deeper (p : Printer) : p.deeper.back = p := by
  simp [deeper, back]

end Printer

end Sentential
