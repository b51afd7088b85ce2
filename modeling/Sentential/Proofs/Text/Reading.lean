import Sentential.Text.Blank
import Sentential.Text.Numeral

/-!
# What words and numerals are

Words are what is left between blanks once empty pieces are dropped. A numeral is
a word of digits with at most one sign in front, and its value has to be in range
as a whole: the reader stops at the first digit that leads out of the range, but
further digits never lead back into it.
-/

set_option autoImplicit false

namespace Sentential.Text

theorem wordsFrom_eq (word cs : List Char) :
    wordsFrom word cs = (cs.splitOnPPrepend isBlank word).filter (fun w => !w.isEmpty) := by
  induction cs generalizing word with
  | nil => cases word <;> simp [wordsFrom, List.splitOnPPrepend]
  | cons c cs ih =>
    rw [wordsFrom, List.splitOnPPrepend_cons_eq_if]
    by_cases hc : isBlank c = true
    · rw [if_pos hc, if_pos hc, ih []]
      cases word <;> simp
    · rw [if_neg hc, if_neg hc, ih (c :: word)]

/-- The words of a text are its pieces between blanks, without the empty ones. -/
theorem words_eq (cs : List Char) :
    words cs = (cs.splitOnP isBlank).filter (fun w => !w.isEmpty) :=
  wordsFrom_eq [] cs

theorem wordsFrom_eq_nil_iff (word cs : List Char) :
    wordsFrom word cs = [] ↔ word = [] ∧ ∀ c ∈ cs, isBlank c = true := by
  induction cs generalizing word with
  | nil => cases word <;> simp [wordsFrom]
  | cons c cs ih =>
    rw [wordsFrom]
    by_cases hc : isBlank c = true
    · cases word <;> simp [hc, ih]
    · simp [hc, ih]

/-- A text has no words exactly if all of it is blank. -/
theorem words_eq_nil_iff (cs : List Char) : words cs = [] ↔ ∀ c ∈ cs, isBlank c = true := by
  rw [words, wordsFrom_eq_nil_iff]
  simp

/-- Digits, at least one, that spell the number `n` in decimal. -/
def IsDecimal (digits : List Char) (n : Nat) : Prop :=
  digits ≠ [] ∧ (∀ c ∈ digits, c.isDigit = true) ∧ Nat.ofDigitChars 10 digits 0 = n

/-- Digits that spell `n`, perhaps after a plus sign. -/
def IsUnsigned (word : List Char) (n : Nat) : Prop :=
  IsDecimal word n ∨ ∃ digits, word = '+' :: digits ∧ IsDecimal digits n

/-- A numeral of a natural number of up to `limit`. -/
def IsNatural (limit : Nat) (word : List Char) (n : Nat) : Prop :=
  n ≤ limit ∧ IsUnsigned word n

/-- A numeral of an integer from `-limit - 1` up to `limit`. -/
def IsInteger (limit : Nat) (word : List Char) (z : Int) : Prop :=
  (∃ n : Nat, z = n ∧ n ≤ limit ∧ IsUnsigned word n) ∨
    ∃ n : Nat, z = -n ∧ n ≤ limit + 1 ∧ ∃ digits, word = '-' :: digits ∧ IsDecimal digits n

theorem le_ofDigitChars (n : Nat) (cs : List Char) : n ≤ Nat.ofDigitChars 10 cs n := by
  induction cs generalizing n with
  | nil => exact Nat.le_refl n
  | cons c cs ih =>
    rw [Nat.ofDigitChars_cons]
    exact Nat.le_trans (by omega) (ih _)

theorem readDigits_eq_ok_iff (limit : Nat) (excess : NumeralError) (n m : Nat) (cs : List Char)
    (hn : n ≤ limit) :
    readDigits limit excess n cs = .ok m ↔
      (∀ c ∈ cs, c.isDigit = true) ∧ Nat.ofDigitChars 10 cs n = m ∧ m ≤ limit := by
  induction cs generalizing n with
  | nil =>
    simp only [readDigits, Except.ok.injEq, Nat.ofDigitChars_nil, List.not_mem_nil,
      false_implies, implies_true, true_and]
    omega
  | cons c cs ih =>
    rw [readDigits, digit?, Nat.ofDigitChars_cons, List.forall_mem_cons, Nat.mul_comm 10 n]
    by_cases hc : c.isDigit = true
    · rw [if_pos hc]
      dsimp only
      by_cases hl : limit < n * 10 + (c.toNat - '0'.toNat)
      · rw [if_pos hl]
        have hle := le_ofDigitChars (n * 10 + (c.toNat - '0'.toNat)) cs
        constructor
        · intro h
          cases h
        · intro h
          omega
      · rw [if_neg hl, ih _ (by omega)]
        simp [hc]
    · simp [hc]

/-- Reading digits from the start gives the value of a decimal numeral in range. -/
theorem readDigits_zero_eq_ok_iff (limit : Nat) (excess : NumeralError) (n : Nat) (cs : List Char)
    (hcs : cs ≠ []) : readDigits limit excess 0 cs = .ok n ↔ n ≤ limit ∧ IsDecimal cs n := by
  rw [readDigits_eq_ok_iff limit excess 0 n cs (Nat.zero_le _), IsDecimal]
  constructor
  · rintro ⟨hd, hv, hl⟩
    exact ⟨hl, hcs, hd, hv⟩
  · rintro ⟨hl, _, hd, hv⟩
    exact ⟨hd, hv, hl⟩

theorem not_isDecimal_nil (n : Nat) : ¬IsDecimal [] n :=
  fun h => h.1 rfl

theorem not_isDecimal_sign {c : Char} (hc : c.isDigit = false) (cs : List Char) (n : Nat) :
    ¬IsDecimal (c :: cs) n := by
  intro h
  have hd := h.2.1 c (by simp)
  rw [hc] at hd
  cases hd

theorem isUnsigned_plus (cs : List Char) (n : Nat) : IsUnsigned ('+' :: cs) n ↔ IsDecimal cs n := by
  simp [IsUnsigned, not_isDecimal_sign]

theorem isUnsigned_of_ne_plus {word : List Char} (h : ∀ cs, word ≠ '+' :: cs) (n : Nat) :
    IsUnsigned word n ↔ IsDecimal word n := by
  simp [IsUnsigned, h]

theorem not_isUnsigned_minus (cs : List Char) (n : Nat) : ¬IsUnsigned ('-' :: cs) n := by
  simp [IsUnsigned, not_isDecimal_sign]

theorem readNatural_eq_ok_iff (limit : Nat) (word : List Char) (n : Nat) :
    readNatural limit word = .ok n ↔ IsNatural limit word n := by
  unfold readNatural IsNatural
  split
  · simp [IsUnsigned, not_isDecimal_nil]
  · simp [isUnsigned_plus, not_isDecimal_nil]
  · rename_i cs hne
    rw [readDigits_zero_eq_ok_iff _ _ _ _ (fun h => hne (by rw [h])), isUnsigned_plus]
  · rename_i hnil _ hsign
    rw [readDigits_zero_eq_ok_iff _ _ _ _ hnil, isUnsigned_of_ne_plus hsign]

theorem map_eq_ok_iff {ε α β : Type} (g : α → β) (x : Except ε α) (b : β) :
    x.map g = .ok b ↔ ∃ a, x = .ok a ∧ g a = b := by
  cases x <;> simp [Except.map]

theorem mapError_eq_ok_iff {ε δ α : Type} (g : ε → δ) (x : Except ε α) (a : α) :
    x.mapError g = .ok a ↔ x = .ok a := by
  cases x with
  | ok =>
    constructor
    · intro h
      cases h
      rfl
    · intro h
      cases h
      rfl
  | error => exact ⟨nofun, nofun⟩

/-- Reading digits as a number that `g` makes an integer of. -/
theorem readDigits_map_eq_ok_iff (g : Nat → Int) (limit : Nat) (excess : NumeralError) (z : Int)
    (cs : List Char) (hcs : cs ≠ []) :
    (readDigits limit excess 0 cs).map g = .ok z ↔
      ∃ n, z = g n ∧ n ≤ limit ∧ IsDecimal cs n := by
  rw [map_eq_ok_iff]
  simp only [readDigits_zero_eq_ok_iff limit excess _ cs hcs]
  constructor
  · rintro ⟨n, hn, rfl⟩
    exact ⟨n, rfl, hn⟩
  · rintro ⟨n, rfl, hn⟩
    exact ⟨n, hn, rfl⟩

theorem readInteger_eq_ok_iff (limit : Nat) (word : List Char) (z : Int) :
    readInteger limit word = .ok z ↔ IsInteger limit word z := by
  unfold readInteger IsInteger
  split
  · simp [IsUnsigned, not_isDecimal_nil]
  · simp [isUnsigned_plus, not_isDecimal_nil]
  · simp [not_isUnsigned_minus, not_isDecimal_nil]
  · rename_i cs hne
    rw [readDigits_map_eq_ok_iff _ _ _ _ _ (fun h => hne (by rw [h]))]
    simp [isUnsigned_plus]
  · rename_i cs hne
    rw [readDigits_map_eq_ok_iff _ _ _ _ _ (fun h => hne (by rw [h]))]
    simp [not_isUnsigned_minus, Int.negOfNat_eq]
  · rename_i hnil _ _ hplus hminus
    rw [readDigits_map_eq_ok_iff _ _ _ _ _ hnil]
    simp only [isUnsigned_of_ne_plus hplus]
    constructor
    · exact .inl
    · rintro (h | ⟨_, _, _, digits, hw, _⟩)
      · exact h
      · exact (hminus digits hw).elim

end Sentential.Text
