import Sentential.Clause.Table
import Sentential.Text.Blank
import Sentential.Text.Lines
import Sentential.Text.Numeral

/-!
# Clause files in DIMACS format

Everything before the first line that contains `p cnf` is skipped. That line has
four words, the third being the highest variable number and the fourth the number
of rows. Every line after it that is not blank is a row of numbers, the last of
which only ends the row. A negative number stands for a negated variable, and a
number without a given name gets a name made from it.

Lines are checked in order and words from left to right, so of several faults the
first one is reported.
-/

set_option autoImplicit false

namespace Sentential.Dimacs

/-- Why a clause file could not be read at all. -/
inductive ReadFailure where
  | notFound
  | notText
  deriving DecidableEq, Repr

inductive FormatError where
  | missingHeader
  | invalidHeader (line : Nat) (text : String)
  | variableOutOfRange (line id : Nat)
  | tooManyRows (line : Nat)
  | tooFewRows (expected found : Nat)
  | invalidNumber (line : Nat) (word : String) (cause : Text.NumeralError)
  | unreadable (cause : ReadFailure)
  deriving DecidableEq, Repr

namespace FormatError

def message : FormatError → String
  | .missingHeader => "missing \"p cnf\" line"
  | .invalidHeader line text => "invalid \"p cnf\" line in line " ++ line.repr ++ ": " ++ text
  | .variableOutOfRange line id => "too high number in line " ++ line.repr ++ ": " ++ id.repr
  | .tooManyRows line => "too many lines found (current line " ++ line.repr ++ ")"
  | .tooFewRows expected found =>
    "reached end of file with too few lines found (expected " ++ expected.repr ++ ", found " ++
      found.repr ++ ")"
  | .invalidNumber line word cause =>
    "error parsing number in line " ++ line.repr ++ ": " ++ word ++ ": " ++ cause.message
  | .unreadable .notFound => "I/O error: file not found"
  | .unreadable .notText => "I/O error: stream did not contain valid UTF-8"

end FormatError

/-- Names for variable numbers. -/
abbrev Naming := Nat → Option String

def nameOf (naming : Naming) (id : Nat) : String :=
  (naming id).getD ("VARIABLE_" ++ id.repr)

/-- `pattern` occurs in the text. -/
def occursIn (pattern : List Char) : List Char → Bool
  | [] => pattern.isEmpty
  | c :: cs => pattern.isPrefixOf (c :: cs) || occursIn pattern cs

def isHeader (line : String) : Bool :=
  occursIn "p cnf".toList line.toList

/-- The largest number of variables or rows that a header can declare. -/
def headerLimit : Nat := UInt32.size - 1

def readHeaderNumber (line : Nat) (word : List Char) : Except FormatError Nat :=
  (Text.readNatural headerLimit word).mapError (.invalidNumber line (String.ofList word))

def readRowNumber (line : Nat) (word : List Char) : Except FormatError Int :=
  (Text.readInteger (UInt64.size / 2 - 1) word).mapError (.invalidNumber line (String.ofList word))

/-- The literals of a row. All of its words must be numbers, and all but the last one must be in
range; the number of a variable out of range is reported modulo `2 ^ 32`. -/
def readRow (naming : Naming) (highest line : Nat) : List (List Char) → Except FormatError Row
  | [] => .ok []
  | [last] => (readRowNumber line last).map (fun _ => [])
  | word :: words =>
    match readRowNumber line word with
    | .error e => .error e
    | .ok n =>
      if highest < n.natAbs then .error (.variableOutOfRange line (n.natAbs % UInt32.size))
      else (readRow naming highest line words).map
        (fun row => ⟨nameOf naming n.natAbs, decide (n < 0)⟩ :: row)

/-- The rows in the lines from number `line` on, after `found` rows. A line that is no text cannot
be read. -/
def readRows (naming : Naming) (highest expected : Nat) (line found : Nat) :
    List (Option String) → Except FormatError (List Row)
  | [] => if found < expected then .error (.tooFewRows expected found) else .ok []
  | none :: _ => .error (.unreadable .notText)
  | some text :: rest =>
    let words := Text.words text.toList
    if words.isEmpty then readRows naming highest expected (line + 1) found rest
    else if expected < found + 1 then .error (.tooManyRows line)
    else
      match readRow naming highest line words with
      | .error e => .error e
      | .ok row => (readRows naming highest expected (line + 1) (found + 1) rest).map (row :: ·)

/-- The table in the lines from number `line` on, before the header is found. -/
def readLines (naming : Naming) (line : Nat) : List (Option String) → Except FormatError Table
  | [] => .error .missingHeader
  | none :: _ => .error (.unreadable .notText)
  | some text :: rest =>
    if isHeader text then
      match Text.words text.toList with
      | [_, _, highest, expected] => do
        let highest ← readHeaderNumber line highest
        let expected ← readHeaderNumber line expected
        let rows ← readRows naming highest expected (line + 1) 0 rest
        return ⟨rows⟩
      | _ => .error (.invalidHeader line text)
    else readLines naming (line + 1) rest

/-- Reads a clause file given as text. -/
def parse (naming : Naming) (text : String) : Except FormatError Table :=
  readLines naming 1 ((Text.charLines text).map some)

/-- Reads a clause file given as bytes. Each line is decoded when it is reached. -/
def parseBytes (naming : Naming) (bytes : List UInt8) : Except FormatError Table :=
  readLines naming 1 (Text.byteLines bytes)

/-- Reads a clause file, given its bytes if there is such a file. -/
def parseFile (naming : Naming) : Option (List UInt8) → Except FormatError Table
  | some bytes => parseBytes naming bytes
  | none => .error (.unreadable .notFound)

end Sentential.Dimacs
