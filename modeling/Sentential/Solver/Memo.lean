import Sentential.Solver.Basic

/-!
# Remembered answers

A memo asks its solver only about tables that it has no answer for, where the
order of rows and literals does not matter. With a capacity above zero it stops
storing answers once it is full; nothing is ever forgotten or replaced, and a
failure is not stored.
-/

set_option autoImplicit false

namespace Sentential

structure Memo (σ : Type) where
  inner : σ
  /-- The greatest number of stored answers, zero being no limit. -/
  capacity : Nat := 0
  /-- The stored answers in the order in which they were given. -/
  entries : List (Table × Bool) := []

namespace Memo

variable {σ : Type}

def count (m : Memo σ) : Nat := m.entries.length

def isEmpty (m : Memo σ) : Bool := m.entries.isEmpty

/-- The stored answer about a table. -/
def lookup (m : Memo σ) (t : Table) : Option Bool :=
  (m.entries.find? (fun entry => entry.1.same t)).map Prod.snd

def hasRoom (m : Memo σ) : Bool :=
  m.capacity == 0 || decide (m.count < m.capacity)

/-- Stores an answer if there is room. -/
def store (m : Memo σ) (t : Table) (answer : Bool) : Memo σ :=
  if m.hasRoom then { m with entries := m.entries ++ [(t, answer)] } else m

instance [Solver σ] : Solver (Memo σ) where
  ask m t :=
    match m.lookup t with
    | some answer => (.ok answer, m)
    | none =>
      match Solver.ask m.inner t with
      | (.ok answer, inner) => (.ok answer, { m with inner }.store t answer)
      | (.error e, inner) => (.error e, { m with inner })

end Memo

end Sentential
