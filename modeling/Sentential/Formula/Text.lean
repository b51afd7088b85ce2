import Sentential.Formula.Gauge

/-!
# Printed formulas

One line of text per formula: `1` and `0` for the constants, `!` in front of a
negated formula, parentheses around every use of a connective. The length of a
text is its number of UTF-8 bytes and is computed without printing.
-/

set_option autoImplicit false

namespace Sentential

def Connective.symbol : Connective → String
  | .and => "&&"
  | .or => "||"

namespace Formula

def text : Formula → String
  | .const true => "1"
  | .const false => "0"
  | .var name => name
  | .neg inner => "!" ++ inner.text
  | .bin op left right => "(" ++ left.text ++ " " ++ op.symbol ++ " " ++ right.text ++ ")"

end Formula

/-- Charges each node the bytes that it adds to the printed text. -/
@[reducible] def Gauge.bytes : Gauge where
  const := 1
  var := String.utf8ByteSize
  neg := 1
  bin := 6
  neg_pos := Nat.one_pos
  bin_pos := Nat.succ_pos 5
  const_le_bin := Nat.succ_le_succ (Nat.zero_le 5)

/-- The number of bytes of the printed text. -/
abbrev Formula.textLength (f : Formula) : Nat := Gauge.bytes.size f

theorem Formula.utf8ByteSize_text (f : Formula) : f.text.utf8ByteSize = f.textLength := by
  induction f with
  | const value => cases value <;> rfl
  | var => rfl
  | neg inner ih =>
    have : "!".utf8ByteSize = 1 := rfl
    simp [text, textLength, Gauge.size, ih, this]
  | bin op left right ihl ihr =>
    have h1 : "(".utf8ByteSize = 1 := rfl
    have h2 : " ".utf8ByteSize = 1 := rfl
    have h3 : ")".utf8ByteSize = 1 := rfl
    have h4 : op.symbol.utf8ByteSize = 2 := by cases op <;> rfl
    simp [text, textLength, Gauge.size, ihl, ihr, h1, h2, h3, h4]
    omega

theorem Formula.Smaller.text {f g : Formula} (h : f.Smaller g) :
    f.text.utf8ByteSize < g.text.utf8ByteSize := by
  rw [utf8ByteSize_text, utf8ByteSize_text]
  exact h Gauge.bytes

end Sentential
