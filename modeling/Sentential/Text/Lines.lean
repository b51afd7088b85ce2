/-!
# Lines

A line is ended by a line feed. A carriage return right before it belongs to the
line's end; one before the end of the text does not. The rule is the same for
characters and for bytes, so it is stated for any alphabet with two chosen
members.
-/

set_option autoImplicit false

namespace Sentential.Text

variable {α : Type} [DecidableEq α]

/-- The lines of a text, the first of which starts with `line`, given in reverse. -/
def linesFrom (feed carriage : α) (line : List α) : List α → List (List α)
  | [] => if line.isEmpty then [] else [line.reverse]
  | a :: rest =>
    if a = feed then ended line :: linesFrom feed carriage [] rest
    else linesFrom feed carriage (a :: line) rest
where
  ended : List α → List α
    | [] => []
    | last :: before => if last = carriage then before.reverse else (last :: before).reverse

/-- The lines of a text. What follows the last line feed is a line unless it is empty. -/
def lines (feed carriage : α) (text : List α) : List (List α) :=
  linesFrom feed carriage [] text

/-- The lines of a text of characters. -/
def charLines (text : String) : List String :=
  (lines '\n' '\r' text.toList).map String.ofList

/-- The lines of a text of bytes, each decoded as UTF-8 on its own if it can be. -/
def byteLines (bytes : List UInt8) : List (Option String) :=
  (lines (10 : UInt8) 13 bytes).map (fun line => String.fromUTF8? ⟨line.toArray⟩)

end Sentential.Text
