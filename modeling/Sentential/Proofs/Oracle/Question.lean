import Sentential.Oracle
import Sentential.Proofs.Oracle.Satisfiability

/-!
# One question to an oracle

A base given as a table stands for itself if it mentions no reserved name. An
oracle is sound over a base if its solver is in a state that the invariant
admits and its converter is past the auxiliary variables of the base. Each
question whose table has no other than the given names leaves it so, and each
answer to it that is given at all is exact. Nothing is assumed about failures: a
question that fails counts as asked.
-/

set_option autoImplicit false

namespace Sentential
open Conversion

def Table.Unreserved (t : Table) : Prop :=
  ∀ name ∈ t.names, ¬Reserved name

theorem Table.Unreserved.holds {t : Table} (h : t.Unreserved) (v w : Valuation)
    (hp : AgreePlain v w) (hv : t.holds v = true) : t.holds w = true :=
  t.holds_transfer v w (fun name hn => (hp name (h name hn)).symm) hv

theorem Formula.Unreserved.neg {f : Formula} (h : f.Unreserved) : (Formula.neg f).Unreserved := h

theorem Formula.Unreserved.bin {f g : Formula} (op : Connective) (hf : f.Unreserved)
    (hg : g.Unreserved) : (Formula.bin op f g).Unreserved := by
  intro name hn
  rw [Formula.mem_names, Formula.occurrences_bin, List.mem_append] at hn
  rcases hn with hn | hn
  · exact hf name ((f.mem_names name).mpr hn)
  · exact hg name ((g.mem_names name).mpr hn)

/-- Reserved names start with one of two letters. -/
theorem not_reserved_of_heads (name : String)
    (h : name.toList.head? ∉ [some 't', some 'P']) : ¬Reserved name := by
  simp only [List.mem_cons, List.not_mem_nil, or_false, not_or] at h
  exact not_reserved_of_head name h.1 h.2

theorem Formula.unreserved_of_heads (f : Formula)
    (h : ∀ name ∈ f.occurrences, name.toList.head? ∉ [some 't', some 'P']) : f.Unreserved :=
  fun name hn => not_reserved_of_heads name (h name ((f.mem_names name).mp hn))

theorem Table.unreserved_of_heads (t : Table)
    (h : ∀ row ∈ t.rows, ∀ l ∈ row, l.name.toList.head? ∉ [some 't', some 'P']) :
    t.Unreserved := by
  intro name hn
  obtain ⟨row, hr, l, hl, rfl⟩ := (t.mem_names name).mp hn
  exact not_reserved_of_heads l.name (h row hr l hl)

namespace Oracle

variable {σ : Type}

structure Sound (Inv : σ → Prop) (hi : Nat) (o : Oracle σ) : Prop where
  solver : Inv o.solver
  next : hi ≤ o.converter.next

variable [Solver σ] {names : List String} {Inv : σ → Prop} {base : Table}
  {P : Valuation → Prop} {hi : Nat}

theorem satisfiable_next (o : Oracle σ) (f : Formula) :
    o.converter.next ≤ (o.satisfiable f).2.converter.next :=
  o.converter.convert_next f

theorem satisfiable_sound (ht : Truthful names Inv base) (o : Oracle σ) (ho : o.Sound Inv hi)
    (f : Formula) (hn : (o.converter.convert f).1.names ⊆ names) :
    (o.satisfiable f).2.Sound Inv hi where
  solver := ht.next o.solver _ ho.solver hn
  next := Nat.le_trans ho.next (o.satisfiable_next f)

theorem satisfiable_answer (ht : Truthful names Inv base) (hs : Stands base P hi) (o : Oracle σ)
    (ho : o.Sound Inv hi) (f : Formula) (hf : f.Unreserved)
    (hn : (o.converter.convert f).1.names ⊆ names) (b : Bool)
    (hb : (o.satisfiable f).1 = .ok b) : b = true ↔ ∃ v, P v ∧ f.holds v = true := by
  rw [← compatible_convert base P hi hs o.converter ho.next f hf]
  exact ht.answer o.solver _ b ho.solver hn hb

end Oracle

end Sentential
