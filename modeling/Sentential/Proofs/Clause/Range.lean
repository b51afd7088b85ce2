import Sentential.Proofs.Clause.Dimacs

/-!
# Numbers out of range

When reading stops at a number that is out of range, everything before that
number is free of faults: the header, the rows before, and the words before it in
its own row. The converse holds as well, so the faulty line and its first number
out of range are determined by the text. What is reported of the number has 32
bits only, and a larger number is reported as a different one.
-/

set_option autoImplicit false

namespace Sentential.Dimacs

open Text

/-- A condition on the ways to split a list at one of its members, one member at a time. -/
theorem exists_split_cons {α : Type} (P : List α → α → List α → Prop) (a : α) (l : List α) :
    (∃ before x after, a :: l = before ++ x :: after ∧ P before x after) ↔
      P [] a l ∨ ∃ before x after, l = before ++ x :: after ∧ P (a :: before) x after := by
  constructor
  · rintro ⟨before, x, after, he, hp⟩
    cases before with
    | nil =>
      cases he
      exact .inl hp
    | cons b before =>
      cases he
      exact .inr ⟨before, x, after, rfl, hp⟩
  · rintro (hp | ⟨before, x, after, rfl, hp⟩)
    · exact ⟨[], a, l, rfl, hp⟩
    · exact ⟨a :: before, x, after, rfl, hp⟩

/-- Some word of a row, not its last one, is the number `z`, which is out of range, and the words
before it are numbers in range. The words after it may be anything. -/
def Exceeds (highest : Nat) (words : List (List Char)) (z : Int) : Prop :=
  ∃ before word after, words = before ++ word :: after ∧ after ≠ [] ∧
    (∀ w ∈ before, ∃ y, IsNumber w y ∧ y.natAbs ≤ highest) ∧
    IsNumber word z ∧ highest < z.natAbs

/-- Among the lines from number `line` on, which follow `found` rows, line `number` has `z` as its
first number out of range; the rows before it have no fault and leave room for one more. -/
def Overruns (highest expected line found : Nat) (lines : List String) (number : Nat) (z : Int) :
    Prop :=
  ∃ before text after, lines = before ++ text :: after ∧ number = line + before.length ∧
    found + (before.filter nonBlank).length < expected ∧
    (∀ row ∈ before.filter nonBlank, InRange highest row) ∧ Exceeds highest (tokens text) z

/-- The first marked line, counted from number `line` on, is a header that declares `highest`, and
`z` is the first number out of range in line `number` after it. -/
def Offends (line : Nat) (lines : List String) (highest number : Nat) (z : Int) : Prop :=
  ∃ before header after, lines = before ++ header :: after ∧ (∀ text ∈ before, ¬Marked text) ∧
    Marked header ∧ ∃ expected, Declares header highest expected ∧
      Overruns highest expected (line + before.length + 1) 0 after number z

theorem exceeds_nil (highest : Nat) (z : Int) : ¬Exceeds highest [] z := by
  rintro ⟨before, word, after, he, _⟩
  simp at he

theorem exceeds_single (highest : Nat) (word : List Char) (z : Int) :
    ¬Exceeds highest [word] z := by
  rw [Exceeds, exists_split_cons]
  simp

theorem Exceeds.lt {highest : Nat} {words : List (List Char)} {z : Int}
    (h : Exceeds highest words z) : highest < z.natAbs := by
  obtain ⟨_, _, _, _, _, _, _, hlt⟩ := h
  exact hlt

theorem exceeds_cons {highest : Nat} {word : List Char} {words : List (List Char)} {y : Int}
    (hy : IsNumber word y) (hw : words ≠ []) (z : Int) :
    Exceeds highest (word :: words) z ↔
      (highest < y.natAbs ∧ z = y) ∨ (y.natAbs ≤ highest ∧ Exceeds highest words z) := by
  rw [Exceeds, exists_split_cons]
  apply or_congr
  · constructor
    · rintro ⟨_, _, hz, hlt⟩
      rw [hz.unique hy] at hlt ⊢
      exact ⟨hlt, rfl⟩
    · rintro ⟨hlt, rfl⟩
      exact ⟨hw, by simp, hy, hlt⟩
  · simp only [List.forall_mem_cons]
    constructor
    · rintro ⟨before, w, after, he, ha, ⟨⟨x, hx, hle⟩, hb⟩, hz⟩
      rw [hx.unique hy] at hle
      exact ⟨hle, before, w, after, he, ha, hb, hz⟩
    · rintro ⟨hle, before, w, after, he, ha, hb, hz⟩
      exact ⟨before, w, after, he, ha, ⟨⟨y, hy, hle⟩, hb⟩, hz⟩

/-- The first word of a row with a number out of range is a number itself. -/
theorem Exceeds.first {highest : Nat} {word : List Char} {words : List (List Char)} {z : Int}
    (h : Exceeds highest (word :: words) z) : ∃ y, IsNumber word y := by
  rw [Exceeds, exists_split_cons] at h
  rcases h with ⟨_, _, hz, _⟩ | ⟨before, w, after, _, _, hb, _⟩
  · exact ⟨z, hz⟩
  · obtain ⟨y, hy, _⟩ := hb word (by simp)
    exact ⟨y, hy⟩

/-- A row with a number out of range has a word, so its line is not blank. -/
theorem Exceeds.nonBlank {highest : Nat} {text : String} {z : Int}
    (h : Exceeds highest (tokens text) z) : nonBlank text = true := by
  rw [← Bool.not_eq_false]
  intro hb
  have he := isEmpty_tokens text
  rw [hb, Bool.not_false, List.isEmpty_iff] at he
  rw [he] at h
  exact exceeds_nil highest z h

/-- A row without a fault has no number out of range. -/
theorem InRange.not_exceeds {highest : Nat} {text : String} (h : InRange highest text) (z : Int) :
    ¬Exceeds highest (tokens text) z := by
  rintro ⟨before, word, after, he, ha, _, hz, hlt⟩
  have hm : word ∈ (tokens text).dropLast := by
    rw [he, List.dropLast_append_of_ne_nil (List.cons_ne_nil _ _),
      List.dropLast_cons_of_ne_nil ha]
    simp
  have hle := h.2 word hm z hz
  omega

theorem mapError_eq_error_iff {ε δ α : Type} (g : ε → δ) (x : Except ε α) (d : δ) :
    x.mapError g = .error d ↔ ∃ e, x = .error e ∧ g e = d := by
  cases x <;> simp [Except.mapError]

theorem map_eq_error_iff {ε α β : Type} (g : α → β) (x : Except ε α) (e : ε) :
    x.map g = .error e ↔ x = .error e := by
  cases x <;> simp [Except.map]

theorem bind_eq_error_iff {ε α β : Type} (x : Except ε α) (g : α → Except ε β) (e : ε) :
    x >>= g = .error e ↔ x = .error e ∨ ∃ a, x = .ok a ∧ g a = .error e := by
  cases x <;> simp [bind, Except.bind]

theorem readRowNumber_ne (line : Nat) (word : List Char) (number id : Nat) :
    readRowNumber line word ≠ .error (.variableOutOfRange number id) := by
  simp [readRowNumber, mapError_eq_error_iff]

theorem readHeaderNumber_ne (line : Nat) (word : List Char) (number id : Nat) :
    readHeaderNumber line word ≠ .error (.variableOutOfRange number id) := by
  simp [readHeaderNumber, mapError_eq_error_iff]

theorem readRow_exceeds_iff (naming : Naming) (highest line : Nat) (words : List (List Char))
    (number id : Nat) :
    readRow naming highest line words = .error (.variableOutOfRange number id) ↔
      number = line ∧ ∃ z, Exceeds highest words z ∧ id = z.natAbs % UInt32.size := by
  induction words with
  | nil => simp [readRow, exceeds_nil]
  | cons word words ih =>
    cases words with
    | nil =>
      rw [readRow, map_eq_error_iff]
      simp [readRowNumber_ne, exceeds_single]
    | cons next words =>
      simp only [readRow]
      cases hr : readRowNumber line word with
      | error e =>
        -- no number is out of range after a word that is none
        constructor
        · intro h
          cases h
          exact absurd hr (readRowNumber_ne line word number id)
        · rintro ⟨_, z, hz, _⟩
          obtain ⟨y, hy⟩ := hz.first
          rw [(readRowNumber_eq_ok_iff line word y).mpr hy] at hr
          cases hr
      | ok y =>
        have hy := (readRowNumber_eq_ok_iff line word y).mp hr
        simp only [exceeds_cons hy (List.cons_ne_nil next words)]
        by_cases hl : highest < y.natAbs
        · rw [if_pos hl]
          simp [hl, Nat.not_le.mpr hl, eq_comm]
        · rw [if_neg hl, map_eq_error_iff, ih]
          simp [hl, Nat.not_lt.mp hl]

/-- A row that is refused has a fault. -/
theorem not_inRange_of_error {naming : Naming} {highest line : Nat} {text : String}
    {e : FormatError} (h : readRow naming highest line (words text.toList) = .error e) :
    ¬InRange highest text := by
  intro hin
  obtain ⟨row, hs⟩ := exists_spells naming hin
  rw [(readRow_tokens_eq_ok_iff naming highest line text row).mpr ⟨hin, hs⟩] at h
  cases h

theorem overruns_nil (highest expected line found number : Nat) (z : Int) :
    ¬Overruns highest expected line found [] number z := by
  rintro ⟨before, text, after, he, _⟩
  simp at he

/-- A blank line is passed over. -/
theorem overruns_cons_blank {text : String} (hb : nonBlank text = false)
    (highest expected line found : Nat) (lines : List String) (number : Nat) (z : Int) :
    Overruns highest expected line found (text :: lines) number z ↔
      Overruns highest expected (line + 1) found lines number z := by
  rw [Overruns, exists_split_cons, Overruns]
  have hf (before : List String) :
      (text :: before).filter nonBlank = before.filter nonBlank :=
    List.filter_cons_of_neg (by simp [hb])
  simp only [hf, List.length_cons, Nat.add_assoc, Nat.add_comm 1]
  rw [or_iff_right]
  rintro ⟨_, _, _, he⟩
  rw [he.nonBlank] at hb
  cases hb

/-- A row that is not blank. -/
theorem overruns_cons_row {text : String} (hb : nonBlank text = true)
    (highest expected line found : Nat) (lines : List String) (number : Nat) (z : Int) :
    Overruns highest expected line found (text :: lines) number z ↔
      (number = line ∧ found < expected ∧ Exceeds highest (tokens text) z) ∨
        (InRange highest text ∧
          Overruns highest expected (line + 1) (found + 1) lines number z) := by
  rw [Overruns, exists_split_cons, Overruns]
  have hf (before : List String) :
      (text :: before).filter nonBlank = text :: before.filter nonBlank :=
    List.filter_cons_of_pos hb
  simp only [hf, List.forall_mem_cons, List.length_cons, Nat.add_assoc, Nat.add_comm 1]
  apply or_congr
  · simp
  · constructor
    · rintro ⟨before, row, after, he, hn, hl, ⟨ht, hb⟩, hx⟩
      exact ⟨ht, before, row, after, he, hn, hl, hb, hx⟩
    · rintro ⟨ht, before, row, after, he, hn, hl, hb, hx⟩
      exact ⟨before, row, after, he, hn, hl, ⟨ht, hb⟩, hx⟩

theorem Overruns.room {highest expected line found : Nat} {lines : List String} {number : Nat}
    {z : Int} (h : Overruns highest expected line found lines number z) : found < expected := by
  obtain ⟨_, _, _, _, _, hl, _⟩ := h
  omega

theorem Overruns.lt {highest expected line found : Nat} {lines : List String} {number : Nat}
    {z : Int} (h : Overruns highest expected line found lines number z) : highest < z.natAbs := by
  obtain ⟨_, _, _, _, _, _, _, hx⟩ := h
  exact hx.lt

theorem readRows_overruns_iff (naming : Naming) (highest expected line found : Nat)
    (lines : List String) (number id : Nat) :
    readRows naming highest expected line found (lines.map some) =
        .error (.variableOutOfRange number id) ↔
      ∃ z, Overruns highest expected line found lines number z ∧ id = z.natAbs % UInt32.size := by
  induction lines generalizing line found with
  | nil =>
    rw [List.map_nil, readRows]
    split <;> simp [overruns_nil]
  | cons text lines ih =>
    rw [List.map_cons, readRows, words_eq_tokens, isEmpty_tokens, ← words_eq_tokens]
    cases hb : nonBlank text with
    | false =>
      rw [Bool.not_false, if_pos rfl, ih]
      simp only [overruns_cons_blank hb]
    | true =>
      rw [Bool.not_true, if_neg (by simp)]
      simp only [overruns_cons_row hb]
      by_cases hlt : expected < found + 1
      · rw [if_pos hlt]
        constructor
        · intro h
          cases h
        · rintro ⟨z, ⟨_, hl, _⟩ | ⟨_, ho⟩, _⟩
          · omega
          · have hl := ho.room
            omega
      · rw [if_neg hlt]
        have hx := readRow_exceeds_iff naming highest line (words text.toList) number id
        cases hr : readRow naming highest line (words text.toList) with
        | error e =>
          have hin := not_inRange_of_error hr
          rw [hr, Except.error.injEq, words_eq_tokens] at hx
          rw [Except.error.injEq, hx]
          constructor
          · rintro ⟨hn, z, hz, hi⟩
            exact ⟨z, .inl ⟨hn, by omega, hz⟩, hi⟩
          · rintro ⟨z, ⟨hn, _, hz⟩ | ⟨h, _⟩, hi⟩
            · exact ⟨hn, z, hz, hi⟩
            · exact absurd h hin
        | ok row =>
          have hin := ((readRow_tokens_eq_ok_iff naming highest line text row).mp hr).1
          dsimp only
          rw [map_eq_error_iff, ih]
          simp [hin, hin.not_exceeds]

theorem offends_cons_of_marked {text : String} (hm : Marked text) (line : Nat)
    (lines : List String) (highest number : Nat) (z : Int) :
    Offends line (text :: lines) highest number z ↔
      ∃ expected, Declares text highest expected ∧
        Overruns highest expected (line + 1) 0 lines number z := by
  rw [Offends, exists_split_cons]
  simp [hm]

theorem offends_cons_of_not_marked {text : String} (hm : ¬Marked text) (line : Nat)
    (lines : List String) (highest number : Nat) (z : Int) :
    Offends line (text :: lines) highest number z ↔ Offends (line + 1) lines highest number z := by
  rw [Offends, exists_split_cons, Offends]
  simp only [List.forall_mem_cons, hm, not_false_eq_true, true_and, false_and, and_false, false_or,
    List.length_cons, Nat.add_assoc, Nat.add_comm 1]

theorem Offends.lt {line : Nat} {lines : List String} {highest number : Nat} {z : Int}
    (h : Offends line lines highest number z) : highest < z.natAbs := by
  obtain ⟨_, _, _, _, _, _, _, _, ho⟩ := h
  exact ho.lt

theorem readLines_offends_iff (naming : Naming) (line : Nat) (lines : List String)
    (number id : Nat) :
    readLines naming line (lines.map some) = .error (.variableOutOfRange number id) ↔
      ∃ highest z, Offends line lines highest number z ∧ id = z.natAbs % UInt32.size := by
  induction lines generalizing line with
  | nil => simp [readLines, Offends]
  | cons text lines ih =>
    rw [List.map_cons, readLines]
    by_cases hm : Marked text
    · rw [if_pos ((isHeader_iff text).mpr hm)]
      simp only [offends_cons_of_marked hm]
      split
      · rename_i first second third fourth hw
        rw [words_eq_tokens] at hw
        simp only [bind_eq_error_iff, readHeaderNumber_ne, readHeaderNumber_eq_ok_iff,
          readRows_overruns_iff, false_or]
        constructor
        · rintro ⟨highest, hh, expected, hc, ⟨z, ho, hi⟩ | ⟨_, _, he⟩⟩
          · exact ⟨highest, z, ⟨expected, ⟨first, second, third, fourth, hw, hh, hc⟩, ho⟩, hi⟩
          · cases he
        · rintro ⟨highest, z, ⟨expected, ⟨_, _, _, _, he, hh, hc⟩, ho⟩, hi⟩
          rw [hw] at he
          cases he
          exact ⟨highest, hh, expected, hc, .inl ⟨z, ho, hi⟩⟩
      · rename_i hw
        constructor
        · intro h
          cases h
        · rintro ⟨_, _, ⟨_, ⟨first, second, third, fourth, he, _⟩, _⟩, _⟩
          rw [← words_eq_tokens] at he
          exact (hw first second third fourth he).elim
    · rw [if_neg (fun h => hm ((isHeader_iff text).mp h)), ih]
      simp only [offends_cons_of_not_marked hm]

/-- Reading ends at a number out of range exactly if that is the first fault of the file, and the
line is the one of the fault. The number is reported modulo `2 ^ 32`, so the report names the number
at fault, above the declared maximum, exactly if that number is below `2 ^ 32`. -/
theorem range_fault_reports_remainder (naming : Naming) (text : String) (number id : Nat) :
    parse naming text = .error (.variableOutOfRange number id) ↔
      ∃ highest z, Offends 1 (charLines text) highest number z ∧ id = z.natAbs % UInt32.size ∧
        (id = z.natAbs ∧ highest < id ↔ z.natAbs < UInt32.size) := by
  rw [parse, readLines_offends_iff]
  apply exists_congr
  intro highest
  apply exists_congr
  intro z
  rw [and_congr_right_iff]
  intro ho
  rw [iff_self_and]
  rintro rfl
  constructor
  · intro h
    rw [← h.1]
    exact Nat.mod_lt _ (by decide)
  · intro h
    rw [Nat.mod_eq_of_lt h]
    exact ⟨rfl, ho.lt⟩

/-- A file whose first fault is a number out of range, before a word that is no number. -/
def overrun : String :=
  "c 1 2\np cnf 3000000000 2\n1 -3000000000 0\n\n7 -4000000000 x"

theorem range_fault_reports_remainder_negative :
    ∃ highest z, Offends 1 (charLines overrun) highest 5 z ∧ 4000000000 = z.natAbs % UInt32.size ∧
      (4000000000 = z.natAbs ∧ highest < 4000000000 ↔ z.natAbs < UInt32.size) := by
  apply (range_fault_reports_remainder (fun _ => none) overrun 5 4000000000).mp
  decide +kernel

/-- A file whose only fault is the number `2 ^ 32 + 1`. -/
def wrapping : String :=
  "p cnf 2 1\n4294967297 0\n"

/-- The number out of range is reported as the first variable, which is in range. -/
theorem range_fault_wraps_around :
    parse (fun _ => none) wrapping = .error (.variableOutOfRange 2 1) ∧
      Offends 1 (charLines wrapping) 2 2 4294967297 ∧
      ¬(1 = (4294967297 : Int).natAbs ∧ 2 < 1) := by
  refine ⟨by decide +kernel, ?_, by decide⟩
  have hlines : charLines wrapping = ["p cnf 2 1", "4294967297 0"] := by decide +kernel
  have hheader : Declares "p cnf 2 1" 2 1 := by
    refine ⟨['p'], "cnf".toList, ['2'], ['1'], by decide +kernel, ?_, ?_⟩
    · exact (readHeaderNumber_eq_ok_iff 1 _ _).mp (by decide)
    · exact (readHeaderNumber_eq_ok_iff 1 _ _).mp (by decide)
  have hnumber : IsNumber "4294967297".toList 4294967297 :=
    (readRowNumber_eq_ok_iff 2 _ _).mp (by decide +kernel)
  have hrow : Exceeds 2 (tokens "4294967297 0") 4294967297 :=
    ⟨[], "4294967297".toList, [['0']], by decide +kernel, by simp, by simp, hnumber, by decide⟩
  rw [hlines, offends_cons_of_marked ((isHeader_iff _).mp (by decide))]
  exact ⟨1, hheader, (overruns_cons_row hrow.nonBlank _ _ _ _ _ _ _).mpr
    (.inl ⟨rfl, by decide, hrow⟩)⟩

end Sentential.Dimacs
