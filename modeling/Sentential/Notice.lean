import Sentential.Solver.Error

/-!
# Notices

Some operations report on their progress. A report is a list of notices beside
the result, in the order in which they arise, and never changes the result.
-/

set_option autoImplicit false

namespace Sentential

inductive Severity where
  | info
  | warn
  deriving DecidableEq, Repr

inductive Notice where
  /-- A round of shortening took a text of `before` bytes to one of `after` bytes. -/
  | round (number before after : Nat)
  /-- The search for repeated parts was stopped although it still found changes. -/
  | passLimit (passes : Nat)
  /-- Two conditions were both kept because a solver could not compare them. -/
  | undecided (subject : Option String) (cause : SolverError)
  deriving DecidableEq, Repr

namespace Notice

def severity : Notice → Severity
  | .round .. => .info
  | .passLimit _ => .warn
  | .undecided .. => .warn

def message : Notice → String
  | .round number before after =>
    "Simplification round " ++ number.repr ++ ": length " ++ before.repr ++ " -> " ++ after.repr
  | .passLimit passes =>
    "Stopping sub-tree simplification after " ++ passes.repr ++ " iterations"
  | .undecided none cause => "Error while creating disjunction: " ++ cause.message
  | .undecided (some subject) cause =>
    "Error while creating disjunction for conditions of " ++ subject ++ ": " ++ cause.message

end Notice

/-- A result with the notices that arose on the way to it. -/
structure Logged (α : Type) where
  value : α
  notices : List Notice := []

namespace Logged

variable {α β : Type}

protected def pure (a : α) : Logged α := ⟨a, []⟩

protected def bind (x : Logged α) (f : α → Logged β) : Logged β :=
  ⟨(f x.value).value, x.notices ++ (f x.value).notices⟩

instance : Monad Logged where
  pure := Logged.pure
  bind := Logged.bind

def report (notice : Notice) : Logged Unit := ⟨(), [notice]⟩

@[simp] theorem value_pure (a : α) : (pure a : Logged α).value = a := rfl

@[simp] theorem value_bind (x : Logged α) (f : α → Logged β) :
    (x >>= f).value = (f x.value).value := rfl

@[simp] theorem notices_pure (a : α) : (pure a : Logged α).notices = [] := rfl

@[simp] theorem notices_bind (x : Logged α) (f : α → Logged β) :
    (x >>= f).notices = x.notices ++ (f x.value).notices := rfl

/-- Notices do not affect the result of a loop. -/
theorem value_foldlM (f : β → α → Logged β) (start : β) (as : List α) :
    (as.foldlM f start).value = as.foldl (fun b a => (f b a).value) start := by
  induction as generalizing start with
  | nil => rfl
  | cons a as ih =>
    rw [List.foldlM_cons, value_bind, ih]
    rfl

end Logged

end Sentential
