/-!
# Decimal numerals of bounded numbers

Digits are read from left to right. The first character that is no digit, or the
first digit that takes the number out of its range, ends the reading. A plus sign
is always allowed in front, a minus sign in front of integers only, and a sign
alone is no numeral.
-/

set_option autoImplicit false

namespace Sentential.Text

inductive NumeralError where
  | empty
  | invalidDigit
  | tooLarge
  | tooSmall
  deriving DecidableEq, Repr

def NumeralError.message : NumeralError → String
  | .empty => "cannot parse integer from empty string"
  | .invalidDigit => "invalid digit found in string"
  | .tooLarge => "number too large to fit in target type"
  | .tooSmall => "number too small to fit in target type"

/-- The value of an ASCII digit. -/
def digit? (c : Char) : Option Nat :=
  if c.isDigit then some (c.toNat - '0'.toNat) else none

/-- Reads digits after a number read so far; the result must not exceed `limit`. -/
def readDigits (limit : Nat) (excess : NumeralError) : Nat → List Char → Except NumeralError Nat
  | n, [] => .ok n
  | n, c :: cs =>
    match digit? c with
    | none => .error .invalidDigit
    | some d => if limit < n * 10 + d then .error excess else readDigits limit excess (n * 10 + d) cs

/-- Reads a number of up to `limit`. -/
def readNatural (limit : Nat) : List Char → Except NumeralError Nat
  | [] => .error .empty
  | ['+'] => .error .invalidDigit
  | '+' :: cs => readDigits limit .tooLarge 0 cs
  | cs => readDigits limit .tooLarge 0 cs

/-- Reads an integer `n` with `-limit - 1 ≤ n ≤ limit`. -/
def readInteger (limit : Nat) : List Char → Except NumeralError Int
  | [] => .error .empty
  | ['+'] => .error .invalidDigit
  | ['-'] => .error .invalidDigit
  | '+' :: cs => (readDigits limit .tooLarge 0 cs).map Int.ofNat
  | '-' :: cs => (readDigits (limit + 1) .tooSmall 0 cs).map Int.negOfNat
  | cs => (readDigits limit .tooLarge 0 cs).map Int.ofNat

end Sentential.Text
