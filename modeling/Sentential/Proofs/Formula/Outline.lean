import Mathlib.Data.List.Basic
import Sentential.Formula.Printer
import Sentential.Proofs.Formula.Text

/-!
# Reading back an outline

The lines of an outline stand in infix order, so only their indentation tells
which connective owns which lines. The operands of a formula are further in than
the line of its connective, and that line is the only one of its depth; so the
first and the last line, the number of lines and the line in between determine
the formula. Names may start with a tab or look like a connective or a bracket.

A printer is at the end of a formula what it was at the start, so its texts do
not depend on what it has printed before.
-/

set_option autoImplicit false

namespace Sentential

namespace Formula

/-- Every name fits on a line, and none is spelled like a constant. -/
def Plain (f : Formula) : Prop :=
  ∀ name ∈ f.occurrences, '\n' ∉ name.toList ∧ name ≠ "true" ∧ name ≠ "false"

instance (f : Formula) : Decidable f.Plain :=
  List.decidableBAll
    (fun name : String => '\n' ∉ name.toList ∧ name ≠ "true" ∧ name ≠ "false") f.occurrences

/-- The number of tabs that a line starts with. -/
def indentation (line : String) : Nat :=
  (line.toList.takeWhile (· == '\t')).length

/-- How constants are spelled in outlines. -/
def keyword (value : Bool) : String :=
  if value then "true" else "false"

/-- The texts of an outline besides names. -/
def fixedTexts : List String :=
  ["true", "false", "!(", ")", "&&", "||"]

theorem plain_bin (op : Connective) (left right : Formula) :
    (bin op left right).Plain ↔ left.Plain ∧ right.Plain := by
  rw [Plain, occurrences_bin, List.forall_mem_append]
  rfl

theorem outlineLines_neg (inner : Formula) (depth : Nat) :
    (neg inner).outlineLines depth = outlineLines.line depth "!(" ::
      (inner.outlineLines (depth + 1) ++ [outlineLines.line depth ")"]) :=
  rfl

theorem outlineLines_bin (op : Connective) (left right : Formula) (depth : Nat) :
    (bin op left right).outlineLines depth = left.outlineLines (depth + 1) ++
      outlineLines.line depth op.symbol :: right.outlineLines (depth + 1) :=
  rfl

theorem toList_line (depth : Nat) (content : String) :
    (outlineLines.line depth content).toList = List.replicate depth '\t' ++ content.toList := by
  simp [outlineLines.line]

theorem line_inj {depth : Nat} {content content' : String}
    (h : outlineLines.line depth content = outlineLines.line depth content') :
    content = content' := by
  have hl := congrArg String.toList h
  rw [toList_line, toList_line] at hl
  exact String.toList_inj.mp (List.append_cancel_left hl)

theorem indentation_line (depth : Nat) (content : String) :
    indentation (outlineLines.line depth content) = depth + indentation content := by
  rw [indentation, toList_line, List.takeWhile_append_of_pos (by simp), List.length_append,
    List.length_replicate, indentation]

/-- Every line of an outline has a name or a fixed text behind its tabs, and no line is further out
than the outline. -/
theorem mem_outlineLines (f : Formula) (depth : Nat) (line : String)
    (h : line ∈ f.outlineLines depth) : ∃ d content, line = outlineLines.line d content ∧
      depth ≤ d ∧ (content ∈ f.occurrences ∨ content ∈ fixedTexts) := by
  induction f generalizing depth with
  | const value =>
    cases value
    · exact ⟨depth, "false", List.mem_singleton.mp h, Nat.le_refl depth, .inr (by decide)⟩
    · exact ⟨depth, "true", List.mem_singleton.mp h, Nat.le_refl depth, .inr (by decide)⟩
  | var name =>
    exact ⟨depth, name, List.mem_singleton.mp h, Nat.le_refl depth, .inl (by simp)⟩
  | neg inner ih =>
    rw [outlineLines_neg, List.mem_cons, List.mem_append, List.mem_singleton] at h
    rcases h with h | h | h
    · exact ⟨depth, "!(", h, Nat.le_refl depth, .inr (by decide)⟩
    · obtain ⟨d, content, he, hd, hc⟩ := ih (depth + 1) h
      exact ⟨d, content, he, Nat.le_of_succ_le hd, hc⟩
    · exact ⟨depth, ")", h, Nat.le_refl depth, .inr (by decide)⟩
  | bin op left right ihl ihr =>
    rw [outlineLines_bin, List.mem_append, List.mem_cons] at h
    rw [occurrences_bin]
    rcases h with h | h | h
    · obtain ⟨d, content, he, hd, hc⟩ := ihl (depth + 1) h
      exact ⟨d, content, he, Nat.le_of_succ_le hd, hc.imp_left (List.mem_append_left _)⟩
    · exact ⟨depth, op.symbol, h, Nat.le_refl depth, .inr (by cases op <;> decide)⟩
    · obtain ⟨d, content, he, hd, hc⟩ := ihr (depth + 1) h
      exact ⟨d, content, he, Nat.le_of_succ_le hd, hc.imp_left (List.mem_append_right _)⟩

/-- An operand has no line at the depth of its connective. -/
theorem line_not_mem (f : Formula) (depth : Nat) {content : String} (hc : indentation content = 0) :
    outlineLines.line depth content ∉ f.outlineLines (depth + 1) := by
  intro h
  obtain ⟨d, content', he, hd, _⟩ := mem_outlineLines f (depth + 1) _ h
  have hi := congrArg indentation he
  rw [indentation_line, indentation_line, hc] at hi
  omega

theorem outlineLines_ne_nil (f : Formula) (depth : Nat) : f.outlineLines depth ≠ [] := by
  cases f with
  | const value => cases value <;> simp [outlineLines]
  | var name => simp [outlineLines]
  | neg inner => simp [outlineLines]
  | bin op left right => simp [outlineLines]

theorem IsLeaf.single_line {f : Formula} (h : f.IsLeaf) (hf : f.Plain) (depth : Nat) :
    ∃ word, f.outlineLines depth = [outlineLines.line depth word] ∧ ofWord keyword word = f := by
  cases f with
  | const value => cases value <;> exact ⟨_, rfl, rfl⟩
  | var name =>
    obtain ⟨_, ht, hn⟩ := hf name (by simp)
    exact ⟨name, rfl, ofWord_name hn ht⟩
  | neg => cases h.1
  | bin => cases h.2

theorem indentation_symbol (op : Connective) : indentation op.symbol = 0 := by
  cases op <;> decide

/-- A negation starts at the depth of the outline, a use of a connective further in. -/
theorem outlineLines_neg_ne_bin (inner : Formula) (op : Connective) (left right : Formula)
    (depth : Nat) : (neg inner).outlineLines depth ≠ (bin op left right).outlineLines depth := by
  intro h
  obtain ⟨first, rest, hl⟩ := List.exists_cons_of_ne_nil (left.outlineLines_ne_nil (depth + 1))
  rw [outlineLines_neg, outlineLines_bin, hl, List.cons_append, List.cons.injEq] at h
  have hm : outlineLines.line depth "!(" ∈ left.outlineLines (depth + 1) := by
    rw [hl, h.1]
    exact List.mem_cons_self
  exact line_not_mem left depth (by decide) hm

/-- The lines of a leaf are those of no other formula. -/
theorem IsLeaf.outlineLines_inj {f : Formula} (hl : f.IsLeaf) (g : Formula) (hf : f.Plain)
    (hg : g.Plain) (depth : Nat) (h : f.outlineLines depth = g.outlineLines depth) : f = g := by
  obtain ⟨word, hw, rfl⟩ := hl.single_line hf depth
  rw [hw] at h
  have leaf (hg' : g.IsLeaf) : ofWord keyword word = g := by
    obtain ⟨word', hw', rfl⟩ := hg'.single_line hg depth
    rw [hw', List.cons.injEq] at h
    rw [line_inj h.1]
  cases g with
  | const value => exact leaf (isLeaf_const value)
  | var name => exact leaf (isLeaf_var name)
  | neg inner =>
    have hlength := congrArg List.length h
    simp [outlineLines_neg] at hlength
  | bin op left right =>
    have hlength := congrArg List.length h
    have hpos := List.length_pos_of_ne_nil (left.outlineLines_ne_nil (depth + 1))
    simp only [outlineLines_bin, List.length_append, List.length_cons, List.length_nil] at hlength
    omega

/-- The lines of an outline determine the formula. -/
theorem outlineLines_inj (f g : Formula) (hf : f.Plain) (hg : g.Plain) (depth : Nat)
    (h : f.outlineLines depth = g.outlineLines depth) : f = g := by
  induction f generalizing g depth with
  | const value => exact (isLeaf_const value).outlineLines_inj g hf hg depth h
  | var name => exact (isLeaf_var name).outlineLines_inj g hf hg depth h
  | neg inner ih =>
    cases g with
    | const value => exact ((isLeaf_const value).outlineLines_inj _ hg hf depth h.symm).symm
    | var name => exact ((isLeaf_var name).outlineLines_inj _ hg hf depth h.symm).symm
    | neg inner' =>
      rw [outlineLines_neg, outlineLines_neg, List.cons.injEq] at h
      exact congrArg neg (ih inner' hf hg (depth + 1) (List.append_cancel_right h.2))
    | bin op left right => exact absurd h (outlineLines_neg_ne_bin inner op left right depth)
  | bin op left right ihl ihr =>
    cases g with
    | const value => exact ((isLeaf_const value).outlineLines_inj _ hg hf depth h.symm).symm
    | var name => exact ((isLeaf_var name).outlineLines_inj _ hg hf depth h.symm).symm
    | neg inner => exact absurd h.symm (outlineLines_neg_ne_bin inner op left right depth)
    | bin op' left' right' =>
      rw [plain_bin] at hf hg
      rw [outlineLines_bin, outlineLines_bin] at h
      -- the line of the second connective is in neither operand of the first
      have hne (f : Formula) := line_not_mem f depth (indentation_symbol op')
      obtain ⟨hleft, hline, hright⟩ :=
        (List.append_cons_inj_of_notMem (hne left) (hne right)).mp h
      rw [ihl left' hf.1 hg.1 (depth + 1) hleft, ihr right' hf.2 hg.2 (depth + 1) hright,
        (@symbol_append_inj op op' [] [] (by rw [line_inj hline])).1]

theorem line_feed_not_mem (f : Formula) (hf : f.Plain) (depth : Nat) :
    ∀ line ∈ f.outlineLines depth, '\n' ∉ line.toList := by
  intro line h
  obtain ⟨d, content, rfl, _, hc⟩ := mem_outlineLines f depth line h
  have hfixed : ∀ text ∈ fixedTexts, '\n' ∉ text.toList := by decide
  have hn : '\n' ∉ content.toList := hc.elim (fun hm => (hf content hm).1) (hfixed content)
  simpa [toList_line] using hn

theorem outline_inj (f g : Formula) (hf : f.Plain) (hg : g.Plain) (h : f.outline = g.outline) :
    f = g := by
  have lines (f : Formula) (hf : f.Plain) :
      f.outline.toList.splitOn '\n' = (f.outlineLines 0).map String.toList := by
    rw [outline, String.toList_intercalate]
    apply List.splitOn_intercalate
    · rw [List.forall_mem_map]
      exact f.line_feed_not_mem hf 0
    · simpa using f.outlineLines_ne_nil 0
  have hl := lines f hf
  rw [h, lines g hg] at hl
  have hinj : Function.Injective String.toList := fun _ _ => String.toList_inj.mp
  exact outlineLines_inj f g hf hg 0 (List.map_injective_iff.mpr hinj hl).symm

end Formula

namespace Printer

open Formula

/-- A printer that is `depth` tabs in. -/
def atDepth (depth : Nat) : Printer :=
  ⟨String.ofList (List.replicate depth '\t')⟩

theorem deeper_atDepth (depth : Nat) : (atDepth depth).deeper = atDepth (depth + 1) := by
  rw [deeper, atDepth, atDepth, List.replicate_succ', String.ofList_append]
  rfl

theorem back_atDepth (depth : Nat) : (atDepth (depth + 1)).back = atDepth depth := by
  rw [← deeper_atDepth, back_deeper]

theorem line_atDepth (depth : Nat) (content : String) :
    (atDepth depth).line content = outlineLines.line depth content :=
  rfl

theorem print_atDepth (f : Formula) (depth : Nat) :
    (atDepth depth).print f = ("\n".intercalate (f.outlineLines depth), atDepth depth) := by
  induction f generalizing depth with
  | const value => cases value <;> simp [print, line_atDepth, outlineLines]
  | var name => simp [print, line_atDepth, outlineLines]
  | neg inner ih =>
    have hne := inner.outlineLines_ne_nil (depth + 1)
    have hfirst : outlineLines.line depth "!(\n" = outlineLines.line depth "!(" ++ "\n" := by
      rw [outlineLines.line, outlineLines.line, String.append_assoc]
      rfl
    simp only [print, deeper_atDepth, ih, back_atDepth, line_atDepth, outlineLines_neg]
    rw [String.intercalate_cons_of_ne_nil (List.append_ne_nil_of_left_ne_nil hne _),
      String.intercalate_append_of_ne_nil hne (List.cons_ne_nil _ _),
      String.intercalate_singleton, hfirst]
    simp only [String.append_assoc]
  | bin op left right ihl ihr =>
    have hl := left.outlineLines_ne_nil (depth + 1)
    have hr := right.outlineLines_ne_nil (depth + 1)
    simp only [print, deeper_atDepth, ihl, ihr, back_atDepth, line_atDepth, outlineLines_bin]
    rw [String.intercalate_append_of_ne_nil hl (List.cons_ne_nil _ _),
      String.intercalate_cons_of_ne_nil hr]
    simp only [String.append_assoc]

/-- A new printer prints the outline and is as new afterwards. -/
theorem print_new (f : Formula) : ({} : Printer).print f = (f.outline, {}) :=
  print_atDepth f 0

theorem printAll_new (fs : List Formula) :
    ({} : Printer).printAll fs = (fs.map outline, {}) := by
  induction fs with
  | nil => rfl
  | cons f fs ih => simp only [printAll, print_new, ih, List.map_cons]

/-- Two formulas with the same outline are equal if their names fit on lines and are not spelled
like constants. A printer prints each formula of a sequence as a new printer would, and is as new
afterwards. -/
theorem outlines_are_lossless_and_repeatable :
    (∀ f g : Formula, f.Plain → g.Plain →
      (({} : Printer).print f).1 = (({} : Printer).print g).1 → f = g) ∧
    ∀ fs : List Formula,
      ({} : Printer).printAll fs = (fs.map (fun f => (({} : Printer).print f).1), {}) := by
  simp only [print_new]
  exact ⟨outline_inj, printAll_new⟩

/-- Names that look like the lines of connectives and brackets do not hide the nesting. -/
theorem outlines_are_lossless_and_repeatable_nested :
    (({} : Printer).print (.or (.and (.var "a") (.var "\t||")) (.neg (.var ")")))).1 ≠
      (({} : Printer).print (.and (.var "a") (.or (.var "\t||") (.neg (.var ")"))))).1 := by
  intro h
  exact absurd (outlines_are_lossless_and_repeatable.1 _ _ (by decide) (by decide) h) (by decide)

end Printer

end Sentential
