import Sentential.Formula.Text

/-!
# Reading back a printed formula

A constant or a name is printed as a word, and what follows a word in a text is a
space, a closing parenthesis or nothing. So if no name has one of the marks that
the text is built with, then a text shows where its first formula ends, whatever
comes after it. Names may contain `&` and `|`, even be one of the connectives, and
the empty name is a word like any other.
-/

set_option autoImplicit false

namespace Sentential.Formula

/-- The characters that show where formulas begin and end. -/
def marks : List Char :=
  [' ', '(', ')', '!']

/-- A text without marks. -/
def IsWord (text : String) : Prop :=
  ∀ c ∈ text.toList, c ∉ marks

/-- Every name is a word, and not one that stands for a constant. -/
def Legible (f : Formula) : Prop :=
  ∀ name ∈ f.occurrences, IsWord name ∧ name ≠ "0" ∧ name ≠ "1"

instance (text : String) : Decidable (IsWord text) :=
  List.decidableBAll (fun c => c ∉ marks) text.toList

instance (f : Formula) : Decidable f.Legible :=
  List.decidableBAll (fun name => IsWord name ∧ name ≠ "0" ∧ name ≠ "1") f.occurrences

/-- What can follow a formula in a text. -/
def Ends (rest : List Char) : Prop :=
  ∀ c ∈ rest.head?, c = ' ' ∨ c = ')'

/-- Constants and variables. -/
def IsLeaf (f : Formula) : Prop :=
  f.negated? = none ∧ f.connective? = none

/-- The leaf that a word stands for where constants are spelled by `spell`. -/
def ofWord (spell : Bool → String) (word : String) : Formula :=
  if word = spell false then .const false
  else if word = spell true then .const true
  else .var word

theorem ofWord_name {spell : Bool → String} {name : String} (hf : name ≠ spell false)
    (ht : name ≠ spell true) : ofWord spell name = .var name := by
  rw [ofWord, if_neg hf, if_neg ht]

theorem legible_bin (op : Connective) (left right : Formula) :
    (bin op left right).Legible ↔ left.Legible ∧ right.Legible := by
  rw [Legible, occurrences_bin, List.forall_mem_append]
  rfl

theorem ends_nil : Ends [] := by
  simp [Ends]

theorem ends_space (rest : List Char) : Ends (' ' :: rest) := by
  simp [Ends]

theorem ends_parenthesis (rest : List Char) : Ends (')' :: rest) := by
  simp [Ends]

theorem toList_text_neg (f : Formula) (rest : List Char) :
    (neg f).text.toList ++ rest = '!' :: (f.text.toList ++ rest) := by
  simp [text]

theorem toList_text_bin (op : Connective) (left right : Formula) (rest : List Char) :
    (bin op left right).text.toList ++ rest =
      '(' :: (left.text.toList ++ ' ' :: (op.symbol.toList ++
        ' ' :: (right.text.toList ++ ')' :: rest))) := by
  simp [text]

theorem isLeaf_const (value : Bool) : (const value).IsLeaf :=
  ⟨rfl, rfl⟩

theorem isLeaf_var (name : String) : (var name).IsLeaf :=
  ⟨rfl, rfl⟩

theorem IsLeaf.isWord {f : Formula} (h : f.IsLeaf) (hf : f.Legible) : IsWord f.text := by
  cases f with
  | const value => cases value <;> simp [IsWord, text, marks]
  | var name => exact (hf name (by simp)).1
  | neg => cases h.1
  | bin => cases h.2

/-- How constants are spelled in printed formulas. -/
def digit (value : Bool) : String :=
  if value then "1" else "0"

theorem IsLeaf.ofWord_text {f : Formula} (h : f.IsLeaf) (hf : f.Legible) :
    ofWord digit f.text = f := by
  cases f with
  | const value => cases value <;> rfl
  | var name =>
    obtain ⟨_, h0, h1⟩ := hf name (by simp)
    exact ofWord_name h0 h1
  | neg => cases h.1
  | bin => cases h.2

/-- A word is the longest start without marks of a text that goes on after it. -/
theorem takeWhile_word {word : String} (hw : IsWord word) {rest : List Char} (hr : Ends rest) :
    (word.toList ++ rest).takeWhile (fun c => !marks.contains c) = word.toList := by
  rw [List.takeWhile_append_of_pos (by simpa [IsWord] using hw)]
  cases rest with
  | nil => simp
  | cons c rest =>
    obtain rfl | rfl := hr c rfl
    · simp [marks]
    · simp [marks]

theorem word_append_inj {word other : String} (hw : IsWord word) (ho : IsWord other)
    {rest rest' : List Char} (hr : Ends rest) (hr' : Ends rest')
    (h : word.toList ++ rest = other.toList ++ rest') : word = other ∧ rest = rest' := by
  have ht := congrArg (List.takeWhile (fun c => !marks.contains c)) h
  rw [takeWhile_word hw hr, takeWhile_word ho hr'] at ht
  rw [ht] at h
  exact ⟨String.toList_inj.mp ht, List.append_cancel_left h⟩

/-- No word goes on like a formula that starts with a mark. -/
theorem word_append_ne {word : String} (hw : IsWord word) {rest : List Char} (hr : Ends rest)
    {c : Char} (hc : c = '!' ∨ c = '(') (cs : List Char) : word.toList ++ rest ≠ c :: cs := by
  intro h
  have ht := takeWhile_word hw hr
  rw [h, List.takeWhile_cons_of_neg (by rcases hc with rfl | rfl <;> simp [marks])] at ht
  rw [← ht, List.nil_append] at h
  have he := hr c (by rw [h]; rfl)
  rcases hc with rfl | rfl <;> simp at he

theorem IsLeaf.text_append_inj {f : Formula} (hl : f.IsLeaf) (g : Formula) (hf : f.Legible)
    (hg : g.Legible) {rest rest' : List Char} (hr : Ends rest) (hr' : Ends rest')
    (h : f.text.toList ++ rest = g.text.toList ++ rest') : f = g ∧ rest = rest' := by
  have hw := hl.isWord hf
  have leaf (hg' : g.IsLeaf) : f = g ∧ rest = rest' := by
    obtain ⟨ht, he⟩ := word_append_inj hw (hg'.isWord hg) hr hr' h
    rw [← hl.ofWord_text hf, ht, hg'.ofWord_text hg]
    exact ⟨rfl, he⟩
  cases g with
  | const value => exact leaf (isLeaf_const value)
  | var name => exact leaf (isLeaf_var name)
  | neg inner =>
    rw [toList_text_neg] at h
    exact absurd h (word_append_ne hw hr (.inl rfl) _)
  | bin op left right =>
    rw [toList_text_bin] at h
    exact absurd h (word_append_ne hw hr (.inr rfl) _)

theorem symbol_append_inj {op op' : Connective} {rest rest' : List Char}
    (h : op.symbol.toList ++ rest = op'.symbol.toList ++ rest') : op = op' ∧ rest = rest' := by
  cases op <;> cases op' <;> simp_all [Connective.symbol]

/-- Two texts, each with something after it, agree only if the formulas and what comes after them
agree. -/
theorem text_append_inj (f g : Formula) (hf : f.Legible) (hg : g.Legible)
    {rest rest' : List Char} (hr : Ends rest) (hr' : Ends rest')
    (h : f.text.toList ++ rest = g.text.toList ++ rest') : f = g ∧ rest = rest' := by
  induction f generalizing g rest rest' with
  | const value => exact (isLeaf_const value).text_append_inj g hf hg hr hr' h
  | var name => exact (isLeaf_var name).text_append_inj g hf hg hr hr' h
  | neg inner ih =>
    cases g with
    | const value =>
      exact ((isLeaf_const value).text_append_inj _ hg hf hr' hr h.symm).imp .symm .symm
    | var name => exact ((isLeaf_var name).text_append_inj _ hg hf hr' hr h.symm).imp .symm .symm
    | neg inner' =>
      rw [toList_text_neg, toList_text_neg, List.cons.injEq] at h
      obtain ⟨rfl, he⟩ := ih inner' hf hg hr hr' h.2
      exact ⟨rfl, he⟩
    | bin op left right =>
      rw [toList_text_neg, toList_text_bin] at h
      cases h
  | bin op left right ihl ihr =>
    cases g with
    | const value =>
      exact ((isLeaf_const value).text_append_inj _ hg hf hr' hr h.symm).imp .symm .symm
    | var name => exact ((isLeaf_var name).text_append_inj _ hg hf hr' hr h.symm).imp .symm .symm
    | neg inner =>
      rw [toList_text_neg, toList_text_bin] at h
      cases h
    | bin op' left' right' =>
      rw [legible_bin] at hf hg
      rw [toList_text_bin, toList_text_bin, List.cons.injEq] at h
      -- each operand is followed by the space or the parenthesis that shows its end
      obtain ⟨rfl, hop⟩ := ihl left' hf.1 hg.1 (ends_space _) (ends_space _) h.2
      obtain ⟨rfl, hright⟩ := symbol_append_inj (List.cons.inj hop).2
      obtain ⟨rfl, he⟩ := ihr right' hf.2 hg.2 (ends_parenthesis _) (ends_parenthesis _)
        (List.cons.inj hright).2
      exact ⟨rfl, (List.cons.inj he).2⟩

/-- Formulas whose names are words other than the texts of constants are printed alike only if they
are equal. -/
theorem printed_text_determines_formula (f g : Formula) (hf : f.Legible) (hg : g.Legible) :
    f.text = g.text ↔ f = g := by
  constructor
  · intro h
    have he : f.text.toList ++ [] = g.text.toList ++ [] := by rw [h]
    exact (text_append_inj f g hf hg ends_nil ends_nil he).1
  · exact congrArg text

/-- Names that are connectives or empty do not hide the nesting. -/
theorem printed_text_determines_formula_nested :
    (Formula.or (.and (.var "&&") (.var "")) (.neg (.var "a||b"))).text ≠
      (Formula.and (.var "&&") (.or (.var "") (.neg (.var "a||b")))).text := by
  rw [Ne, printed_text_determines_formula _ _ (by decide) (by decide)]
  decide

end Sentential.Formula
