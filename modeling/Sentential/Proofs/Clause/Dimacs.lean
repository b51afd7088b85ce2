import Mathlib.Data.List.Forall2
import Sentential.Clause.Dimacs
import Sentential.Proofs.Text.Reading

/-!
# The format of clause files

A clause file is described line by line and word by word, without the order in
which the reader looks at them: the header is the first line with the mark, the
rows are the lines after it that are not blank, and every word of a row is a
numeral. The reader accepts exactly the files of this description, and its table
holds the literals that their words stand for.
-/

set_option autoImplicit false

namespace Sentential.Dimacs

open Text

/-- The words of a line. -/
def tokens (line : String) : List (List Char) :=
  (line.toList.splitOnP isBlank).filter (fun w => !w.isEmpty)

/-- The line has a character that is not blank. -/
def nonBlank (line : String) : Bool :=
  line.toList.any (fun c => !isBlank c)

/-- The line has the mark of a header somewhere. -/
def Marked (line : String) : Prop :=
  "p cnf".toList <:+: line.toList

/-- The line has four words, the last two of which are the highest variable number and the number
of rows. -/
def Declares (line : String) (highest expected : Nat) : Prop :=
  ∃ first second third fourth, tokens line = [first, second, third, fourth] ∧
    IsNatural (UInt32.size - 1) third highest ∧ IsNatural (UInt32.size - 1) fourth expected

/-- The first marked line is a header with the given highest variable number, and the lines after
it that are not blank are the given ones, as many as it declares. -/
def Laid (lines : List String) (highest : Nat) (rows : List String) : Prop :=
  ∃ before header after, lines = before ++ header :: after ∧ (∀ line ∈ before, ¬Marked line) ∧
    Marked header ∧ Declares header highest rows.length ∧ rows = after.filter nonBlank

/-- The numbers that a row can hold. -/
abbrev IsNumber (word : List Char) (z : Int) : Prop :=
  IsInteger (UInt64.size / 2 - 1) word z

/-- All words of the line are numbers, and all but the last are in range. -/
def InRange (highest : Nat) (line : String) : Prop :=
  (∀ word ∈ tokens line, ∃ z, IsNumber word z) ∧
    ∀ word ∈ (tokens line).dropLast, ∀ z, IsNumber word z → z.natAbs ≤ highest

/-- The word is a number, and the literal is the variable of that number, negated if the number is
negative. -/
def Denotes (naming : Naming) (word : List Char) (literal : Literal) : Prop :=
  ∃ z, IsNumber word z ∧ literal = ⟨nameOf naming z.natAbs, decide (z < 0)⟩

/-- The row holds the literals of all words of the line but the last, in order. -/
def Spells (naming : Naming) (line : String) (row : Row) : Prop :=
  List.Forall₂ (Denotes naming) (tokens line).dropLast row

theorem occursIn_iff (pattern cs : List Char) : occursIn pattern cs = true ↔ pattern <:+: cs := by
  induction cs with
  | nil => simp [occursIn]
  | cons c cs ih =>
    rw [occursIn, Bool.or_eq_true, ih, List.isPrefixOf_iff_prefix, List.infix_cons_iff]

theorem isHeader_iff (line : String) : isHeader line = true ↔ Marked line :=
  occursIn_iff _ _

theorem words_eq_tokens (line : String) : words line.toList = tokens line :=
  words_eq _

theorem isEmpty_tokens (line : String) : (tokens line).isEmpty = !nonBlank line := by
  rw [Bool.eq_iff_iff, List.isEmpty_iff, ← words_eq_tokens, words_eq_nil_iff]
  simp [nonBlank]

theorem readHeaderNumber_eq_ok_iff (line : Nat) (word : List Char) (n : Nat) :
    readHeaderNumber line word = .ok n ↔ IsNatural (UInt32.size - 1) word n := by
  rw [readHeaderNumber, mapError_eq_ok_iff, readNatural_eq_ok_iff]
  rfl

theorem readRowNumber_eq_ok_iff (line : Nat) (word : List Char) (z : Int) :
    readRowNumber line word = .ok z ↔ IsNumber word z := by
  rw [readRowNumber, mapError_eq_ok_iff, readInteger_eq_ok_iff]

theorem IsNumber.unique {word : List Char} {z y : Int} (hz : IsNumber word z)
    (hy : IsNumber word y) : z = y := by
  rw [← readRowNumber_eq_ok_iff 0] at hz hy
  rw [hz] at hy
  exact Except.ok.inj hy

/-- The condition on the words of a row, one word at a time. -/
def Sound (naming : Naming) (highest : Nat) (words : List (List Char)) (row : Row) : Prop :=
  (∀ word ∈ words, ∃ z, IsNumber word z) ∧
    (∀ word ∈ words.dropLast, ∀ z, IsNumber word z → z.natAbs ≤ highest) ∧
    List.Forall₂ (Denotes naming) words.dropLast row

theorem sound_cons {naming : Naming} {highest : Nat} {word : List Char} {z : Int}
    (hz : IsNumber word z) (words : List (List Char)) (hw : words ≠ []) (row : Row) :
    Sound naming highest (word :: words) row ↔ z.natAbs ≤ highest ∧
      ∃ rest, Sound naming highest words rest ∧
        ⟨nameOf naming z.natAbs, decide (z < 0)⟩ :: rest = row := by
  rw [Sound, List.dropLast_cons_of_ne_nil hw, List.forall_mem_cons, List.forall_mem_cons,
    List.forall₂_cons_left_iff]
  constructor
  · rintro ⟨⟨_, hn⟩, ⟨hr, hrs⟩, literal, rest, ⟨y, hy, rfl⟩, hd, rfl⟩
    rw [hy.unique hz]
    exact ⟨hr z hz, rest, ⟨hn, hrs, hd⟩, rfl⟩
  · rintro ⟨hle, rest, ⟨hn, hrs, hd⟩, rfl⟩
    refine ⟨⟨⟨z, hz⟩, hn⟩, ⟨?_, hrs⟩, _, rest, ⟨z, hz, rfl⟩, hd, rfl⟩
    intro y hy
    rw [hy.unique hz]
    exact hle

theorem readRow_eq_ok_iff (naming : Naming) (highest line : Nat) (words : List (List Char))
    (row : Row) :
    readRow naming highest line words = .ok row ↔ Sound naming highest words row := by
  induction words generalizing row with
  | nil => simp [readRow, Sound, eq_comm]
  | cons word words ih =>
    cases words with
    | nil =>
      -- the last word has to be a number, but any number will do
      rw [readRow, map_eq_ok_iff]
      simp only [readRowNumber_eq_ok_iff]
      constructor
      · rintro ⟨z, hz, rfl⟩
        exact ⟨by simpa using ⟨z, hz⟩, by simp, .nil⟩
      · rintro ⟨hn, _, hd⟩
        obtain ⟨z, hz⟩ := hn word (by simp)
        cases hd
        exact ⟨z, hz, rfl⟩
    | cons next words =>
      simp only [readRow]
      cases hr : readRowNumber line word with
      | error e =>
        constructor
        · intro h
          cases h
        · intro h
          obtain ⟨z, hz⟩ := h.1 word (by simp)
          rw [(readRowNumber_eq_ok_iff line word z).mpr hz] at hr
          cases hr
      | ok z =>
        rw [sound_cons ((readRowNumber_eq_ok_iff line word z).mp hr) _ (List.cons_ne_nil _ _)]
        dsimp only
        by_cases hl : highest < z.natAbs
        · rw [if_pos hl]
          constructor
          · intro h
            cases h
          · intro h
            omega
        · rw [if_neg hl, map_eq_ok_iff]
          simp only [ih, Nat.not_lt.mp hl, true_and]

theorem readRow_tokens_eq_ok_iff (naming : Naming) (highest number : Nat) (line : String)
    (row : Row) :
    readRow naming highest number (words line.toList) = .ok row ↔
      InRange highest line ∧ Spells naming line row := by
  rw [words_eq_tokens, readRow_eq_ok_iff, Sound, InRange, Spells, and_assoc]

theorem readRows_eq_ok_iff (naming : Naming) (highest expected line found : Nat)
    (lines : List String) (rows : List Row) (hf : found ≤ expected) :
    readRows naming highest expected line found (lines.map some) = .ok rows ↔
      found + (lines.filter nonBlank).length = expected ∧
      (∀ line ∈ lines.filter nonBlank, InRange highest line) ∧
      List.Forall₂ (Spells naming) (lines.filter nonBlank) rows := by
  induction lines generalizing line found rows with
  | nil =>
    rw [List.map_nil, readRows]
    by_cases hlt : found < expected
    · rw [if_pos hlt]
      simp
      omega
    · rw [if_neg hlt]
      simp [eq_comm]
      omega
  | cons text lines ih =>
    rw [List.map_cons, readRows, words_eq_tokens, isEmpty_tokens, ← words_eq_tokens]
    cases hb : nonBlank text with
    | false =>
      rw [Bool.not_false, if_pos rfl, List.filter_cons_of_neg (by simp [hb])]
      exact ih (line + 1) found rows hf
    | true =>
      rw [Bool.not_true, if_neg (by simp), List.filter_cons_of_pos hb, List.forall_mem_cons,
        List.forall₂_cons_left_iff, List.length_cons]
      by_cases hlt : expected < found + 1
      · rw [if_pos hlt]
        constructor
        · intro h
          cases h
        · intro h
          omega
      · rw [if_neg hlt]
        have hread := readRow_tokens_eq_ok_iff naming highest line text
        cases hr : readRow naming highest line (words text.toList) with
        | error e =>
          constructor
          · intro h
            cases h
          · rintro ⟨_, ⟨hin, _⟩, row, _, hs, _⟩
            rw [(hread row).mpr ⟨hin, hs⟩] at hr
            cases hr
        | ok row =>
          have hrow := (hread row).mp hr
          dsimp only
          rw [map_eq_ok_iff]
          simp only [ih (line + 1) (found + 1) _ (by omega)]
          constructor
          · rintro ⟨rest, ⟨hlength, hin, hs⟩, rfl⟩
            exact ⟨by omega, ⟨hrow.1, hin⟩, row, rest, hrow.2, hs, rfl⟩
          · rintro ⟨hlength, ⟨_, hin⟩, row', rest, hs', hs, rfl⟩
            have he := (hread row').mpr ⟨hrow.1, hs'⟩
            rw [hr] at he
            cases he
            exact ⟨rest, ⟨by omega, hin, hs⟩, rfl⟩

theorem laid_cons_of_marked {text : String} (h : Marked text) (lines : List String)
    (highest : Nat) (rows : List String) :
    Laid (text :: lines) highest rows ↔
      Declares text highest rows.length ∧ rows = lines.filter nonBlank := by
  constructor
  · rintro ⟨before, header, after, he, hb, _, hd, hr⟩
    cases before with
    | nil =>
      cases he
      exact ⟨hd, hr⟩
    | cons first before =>
      cases he
      exact absurd h (hb text (by simp))
  · rintro ⟨hd, hr⟩
    exact ⟨[], text, lines, rfl, by simp, h, hd, hr⟩

theorem laid_cons_of_not_marked {text : String} (h : ¬Marked text) (lines : List String)
    (highest : Nat) (rows : List String) :
    Laid (text :: lines) highest rows ↔ Laid lines highest rows := by
  constructor
  · rintro ⟨before, header, after, he, hb, hm, hd, hr⟩
    cases before with
    | nil =>
      cases he
      exact absurd hm h
    | cons first before =>
      cases he
      exact ⟨before, header, after, rfl, fun line hl => hb line (by simp [hl]), hm, hd, hr⟩
  · rintro ⟨before, header, after, rfl, hb, hm, hd, hr⟩
    refine ⟨text :: before, header, after, rfl, ?_, hm, hd, hr⟩
    rw [List.forall_mem_cons]
    exact ⟨h, hb⟩

/-- The lines of a clause file that has the given table. -/
def Describes (naming : Naming) (lines : List String) (table : Table) : Prop :=
  ∃ highest rows, Laid lines highest rows ∧ (∀ line ∈ rows, InRange highest line) ∧
    List.Forall₂ (Spells naming) rows table.rows

theorem bind_eq_ok_iff {ε α β : Type} (x : Except ε α) (g : α → Except ε β) (b : β) :
    x >>= g = .ok b ↔ ∃ a, x = .ok a ∧ g a = .ok b := by
  cases x <;> simp [bind, Except.bind]

theorem readLines_eq_ok_iff (naming : Naming) (line : Nat) (lines : List String) (table : Table) :
    readLines naming line (lines.map some) = .ok table ↔ Describes naming lines table := by
  induction lines generalizing line with
  | nil => simp [readLines, Describes, Laid]
  | cons text lines ih =>
    rw [List.map_cons, readLines]
    by_cases hm : Marked text
    · rw [if_pos ((isHeader_iff text).mpr hm)]
      simp only [Describes, laid_cons_of_marked hm]
      split
      · rename_i first second third fourth hw
        rw [words_eq_tokens] at hw
        simp only [bind_eq_ok_iff, readHeaderNumber_eq_ok_iff,
          readRows_eq_ok_iff _ _ _ _ 0 _ _ (Nat.zero_le _), Nat.zero_add]
        constructor
        · rintro ⟨highest, hh, _, hc, rows, ⟨rfl, hin, hs⟩, he⟩
          cases he
          exact ⟨highest, _, ⟨⟨first, second, third, fourth, hw, hh, hc⟩, rfl⟩, hin, hs⟩
        · rintro ⟨highest, _, ⟨⟨_, _, _, _, he, hh, hc⟩, rfl⟩, hin, hs⟩
          rw [hw] at he
          cases he
          exact ⟨highest, hh, _, hc, table.rows, ⟨rfl, hin, hs⟩, rfl⟩
      · rename_i hw
        constructor
        · intro h
          cases h
        · rintro ⟨_, _, ⟨⟨first, second, third, fourth, he, _⟩, _⟩, _⟩
          rw [← words_eq_tokens] at he
          exact (hw first second third fourth he).elim
    · rw [if_neg (fun h => hm ((isHeader_iff text).mp h)), ih]
      simp only [Describes, laid_cons_of_not_marked hm]

theorem exists_forall₂ {α β : Type} {R : α → β → Prop} {as : List α}
    (h : ∀ a ∈ as, ∃ b, R a b) : ∃ bs, List.Forall₂ R as bs := by
  induction as with
  | nil => exact ⟨[], .nil⟩
  | cons a as ih =>
    rw [List.forall_mem_cons] at h
    obtain ⟨b, hb⟩ := h.1
    obtain ⟨bs, hbs⟩ := ih h.2
    exact ⟨b :: bs, .cons hb hbs⟩

theorem exists_spells (naming : Naming) {highest : Nat} {line : String}
    (h : InRange highest line) : ∃ row, Spells naming line row := by
  apply exists_forall₂
  intro word hw
  obtain ⟨z, hz⟩ := h.1 word (List.dropLast_subset _ hw)
  exact ⟨_, z, hz, rfl⟩

/-- A text is read as a table exactly if it has the format of a clause file, the table being the
one that its rows spell; any other text is an error. -/
theorem parsing_accepts_exactly_the_format (naming : Naming) (text : String) :
    (∀ table, parse naming text = .ok table ↔ Describes naming (charLines text) table) ∧
    ((∃ e, parse naming text = .error e) ↔
      ¬∃ highest rows, Laid (charLines text) highest rows ∧
        ∀ line ∈ rows, InRange highest line) := by
  have hok (table : Table) : parse naming text = .ok table ↔
      Describes naming (charLines text) table :=
    readLines_eq_ok_iff naming 1 (charLines text) table
  refine ⟨hok, ?_⟩
  cases hp : parse naming text with
  | ok table =>
    obtain ⟨highest, rows, hl, hin, _⟩ := (hok table).mp hp
    simp only [reduceCtorEq, exists_false, false_iff, not_not]
    exact ⟨highest, rows, hl, hin⟩
  | error e =>
    simp only [Except.error.injEq, exists_eq', true_iff]
    rintro ⟨highest, rows, hl, hin⟩
    obtain ⟨table, ht⟩ := exists_forall₂ (fun line h => exists_spells naming (hin line h))
    have hd := (hok ⟨table⟩).mpr ⟨highest, rows, hl, hin, ht⟩
    rw [hp] at hd
    cases hd

/-- A file with signs, a blank line and a row that does not end with zero. -/
def unusual : String :=
  "c 1 2\n p cnf 2 +2\r\n1 -2 +0\n\t\n-0 9"

/-- Its table if only the first variable has a name. -/
def unusualTable : Table :=
  ⟨[[⟨"ALPHA", false⟩, ⟨"VARIABLE_2", true⟩], [⟨"VARIABLE_0", false⟩]]⟩

theorem parsing_accepts_exactly_the_format_unusual :
    Describes (fun id => if id = 1 then some "ALPHA" else none) (charLines unusual)
      unusualTable := by
  have hp : parse (fun id => if id = 1 then some "ALPHA" else none) unusual =
      .ok unusualTable := by
    decide +kernel
  exact ((parsing_accepts_exactly_the_format _ unusual).1 unusualTable).mp hp

end Sentential.Dimacs
