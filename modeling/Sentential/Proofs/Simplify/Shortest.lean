import Sentential.Simplify.Shorten

/-!
# The shortest formula of a run

A run executes rounds up to the first that does not shorten the text. The two
formulas that it carries along are the same before every round, since a round
that is followed by another is shorter than all before it. The result is
therefore the formula before the last round, and a second run stops at it. The
pruner is any function; that it keeps the meaning or shortens the text is not
assumed. Neither is anything about the keys of leaves.
-/

set_option autoImplicit false

namespace Sentential.Simplify.Shorten

open Formula

/-- The rounds that a run from a formula executes. -/
inductive Executed (leafKey : Formula → UInt64) (pruner : Formula → Logged Formula) :
    Formula → List (Logged Formula) → Prop
  | last {f : Formula} : ¬(round leafKey pruner f).value.textLength < f.textLength →
      Executed leafKey pruner f [round leafKey pruner f]
  | more {f : Formula} {later : List (Logged Formula)} :
      (round leafKey pruner f).value.textLength < f.textLength →
      Executed leafKey pruner (round leafKey pruner f).value later →
      Executed leafKey pruner f (round leafKey pruner f :: later)

variable {leafKey : Formula → UInt64}

theorem executed_exists (pruner : Formula → Logged Formula) (f : Formula) :
    ∃ executed, Executed leafKey pruner f executed := by
  induction hn : f.textLength using Nat.strongRecOn generalizing f with
  | ind n ih =>
    subst hn
    by_cases h : (round leafKey pruner f).value.textLength < f.textLength
    · obtain ⟨later, hl⟩ := ih _ h (round leafKey pruner f).value rfl
      exact ⟨round leafKey pruner f :: later, .more h hl⟩
    · exact ⟨[round leafKey pruner f], .last h⟩

/-- What is reported of the rounds that follow `f`, counted from `number`. -/
def reports (number : Nat) (f : Formula) : List (Logged Formula) → List Notice
  | [] => []
  | next :: later =>
    next.notices ++ .round number f.textLength next.value.textLength ::
      reports (number + 1) next.value later

section Track

variable (pruner : Formula → Logged Formula) (number : Nat) (shortest current : Formula)

theorem track_stop (h : ¬(round leafKey pruner current).value.textLength < current.textLength) :
    track leafKey pruner number shortest current =
      ⟨shorter shortest (round leafKey pruner current).value,
        reports number current [round leafKey pruner current]⟩ := by
  rw [track, if_neg h]
  rfl

theorem track_continue (h : (round leafKey pruner current).value.textLength < current.textLength) :
    track leafKey pruner number shortest current =
      ⟨(track leafKey pruner (number + 1)
          (shorter shortest (round leafKey pruner current).value)
          (round leafKey pruner current).value).value,
        (round leafKey pruner current).notices ++
          .round number current.textLength (round leafKey pruner current).value.textLength ::
            (track leafKey pruner (number + 1)
              (shorter shortest (round leafKey pruner current).value)
              (round leafKey pruner current).value).notices⟩ := by
  rw [track, if_pos h]
  simp

end Track

theorem shorter_mem (f g : Formula) (gs : List Formula) {r : Formula}
    (h : r ∈ shorter f g :: gs) : r ∈ f :: g :: gs := by
  rcases List.mem_cons.mp h with rfl | hr
  · rw [shorter]
    split <;> simp
  · simp [hr]

theorem shorter_le (f g : Formula) :
    (shorter f g).textLength ≤ f.textLength ∧ (shorter f g).textLength ≤ g.textLength := by
  rw [shorter]
  split <;> omega

theorem track_notices (pruner : Formula → Logged Formula) (number : Nat)
    (shortest current : Formula) (executed : List (Logged Formula))
    (h : Executed leafKey pruner current executed) :
    (track leafKey pruner number shortest current).notices = reports number current executed := by
  induction h generalizing number shortest with
  | last hl => rw [track_stop _ _ _ _ hl]
  | more hl _ ih => rw [track_continue _ _ _ _ hl, ih, reports]

theorem track_mem (pruner : Formula → Logged Formula) (number : Nat) (shortest current : Formula)
    (executed : List (Logged Formula)) (h : Executed leafKey pruner current executed) :
    (track leafKey pruner number shortest current).value ∈
      shortest :: executed.map Logged.value := by
  induction h generalizing number shortest with
  | last hl =>
    rw [track_stop _ _ _ _ hl]
    exact shorter_mem shortest _ [] (by simp)
  | more hl _ ih =>
    rw [track_continue _ _ _ _ hl]
    exact shorter_mem shortest _ _ (ih (number + 1) _)

theorem track_le (pruner : Formula → Logged Formula) (number : Nat) (shortest current : Formula)
    (executed : List (Logged Formula)) (h : Executed leafKey pruner current executed) :
    ∀ g ∈ shortest :: executed.map Logged.value,
      (track leafKey pruner number shortest current).value.textLength ≤ g.textLength := by
  induction h generalizing number shortest with
  | @last f hl =>
    rw [track_stop _ _ _ _ hl]
    have hs := shorter_le shortest (round leafKey pruner f).value
    simpa using hs
  | @more f later hl _ ih =>
    rw [track_continue _ _ _ _ hl]
    have hs := shorter_le shortest (round leafKey pruner f).value
    have hb := List.forall_mem_cons.mp
      (ih (number + 1) (shorter shortest (round leafKey pruner f).value))
    simp only [List.map_cons, List.forall_mem_cons]
    exact ⟨Nat.le_trans hb.1 hs.1, Nat.le_trans hb.1 hs.2, hb.2⟩

/-- The next round would not shorten the result. -/
theorem track_last (pruner : Formula → Logged Formula) (number : Nat) (f : Formula)
    (executed : List (Logged Formula)) (h : Executed leafKey pruner f executed) :
    ¬(round leafKey pruner (track leafKey pruner number f f).value).value.textLength <
      (track leafKey pruner number f f).value.textLength := by
  induction h generalizing number with
  | last hl =>
    rw [track_stop _ _ _ _ hl, shorter, if_neg hl]
    exact hl
  | more hl _ ih =>
    rw [track_continue _ _ _ _ hl, shorter, if_pos hl]
    exact ih (number + 1)

theorem track_of_last (pruner : Formula → Logged Formula) (number : Nat) (f : Formula)
    (h : ¬(round leafKey pruner f).value.textLength < f.textLength) :
    (track leafKey pruner number f f).value = f := by
  rw [track_stop _ _ _ _ h, shorter, if_neg h]

/-- Rounds end, whatever the pruner does and whatever the keys of leaves are. The result is the
formula itself or the outcome of an executed round, its text is as short as any of theirs, and a
second run returns it as it is. -/
theorem shortening_returns_shortest (leafKey : Formula → UInt64)
    (pruner : Formula → Logged Formula) (f : Formula) :
    ∃ executed : List (Logged Formula), Executed leafKey pruner f executed ∧
      (run leafKey pruner f).notices = reports 1 f executed ∧
      (run leafKey pruner f).value ∈ f :: executed.map Logged.value ∧
      (∀ g ∈ f :: executed.map Logged.value,
        (run leafKey pruner f).value.text.utf8ByteSize ≤ g.text.utf8ByteSize) ∧
      (run leafKey pruner (run leafKey pruner f).value).value = (run leafKey pruner f).value := by
  obtain ⟨executed, h⟩ := executed_exists pruner f
  refine ⟨executed, h, ?_, ?_, ?_, ?_⟩
  · exact track_notices pruner 1 f f executed h
  · exact track_mem pruner 1 f f executed h
  · simp only [utf8ByteSize_text]
    exact track_le pruner 1 f f executed h
  · exact track_of_last pruner 1 _ (track_last pruner 1 f executed h)

end Sentential.Simplify.Shorten
