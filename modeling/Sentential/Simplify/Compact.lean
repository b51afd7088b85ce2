import Sentential.Simplify.Factor

/-!
# Compacting whole chains

Compacting tests every two operands of a chain against each other, not only the
two operands of one binary node, and takes out common factors. A replaced
operand is compacted on its own and spliced back into the chain, which is then
scanned from its start again.
-/

set_option autoImplicit false

namespace Sentential.Simplify.Compact

open Formula

/-- What comes of testing one operand of a chain against the operands after it. -/
inductive Outcome where
  /-- The operand stays and so do these. -/
  | settled (rest : List Formula)
  /-- The operand goes and these stay. -/
  | dropped (rest : List Formula)
  | collapse
  /-- A new formula takes the operand's place. -/
  | replaceFirst (f : Formula) (rest : List Formula)
  /-- A new formula takes the place of an operand between these. -/
  | replaceLater (passed : List Formula) (f : Formula) (rest : List Formula)

/-- Puts back an operand that was passed by. -/
def Outcome.pass (t : Formula) : Outcome → Outcome
  | .settled rest => .settled (t :: rest)
  | .dropped rest => .dropped (t :: rest)
  | .collapse => .collapse
  | .replaceFirst f rest => .replaceFirst f (t :: rest)
  | .replaceLater passed f rest => .replaceLater (t :: passed) f rest

/-- Tests `current` against the operands after it, in order, up to the first change that
concerns more than the operand it is tested against. -/
def against (op : Connective) (current : Formula) : List Formula → Outcome
  | [] => .settled []
  | t :: ts =>
    match verdict op current t with
    | .keep => (against op current ts).pass t
    | .dropRight => against op current ts
    | .dropLeft => .dropped (t :: ts)
    | .collapse => .collapse
    | .replaceLeft f => .replaceFirst f (t :: ts)
    | .replaceRight f => .replaceLater [] f ts

/-- What comes of testing every two operands of a chain. -/
inductive Event where
  | stable (ts : List Formula)
  | collapse
  /-- A new formula takes the place of an operand between these. -/
  | replace (before : List Formula) (f : Formula) (after : List Formula)

/-- Puts back an operand at the front. -/
def Event.pass (t : Formula) : Event → Event
  | .stable ts => .stable (t :: ts)
  | .collapse => .collapse
  | .replace before f after => .replace (t :: before) f after

theorem length_against_settled {op : Connective} {current : Formula} {ts rest : List Formula}
    (h : against op current ts = .settled rest) : rest.length ≤ ts.length := by
  induction ts generalizing rest with
  | nil => simp_all [against]
  | cons t ts ih =>
    simp only [against] at h
    split at h <;> try cases h
    · cases inner : against op current ts <;> simp [inner, Outcome.pass] at h
      subst h
      simpa using ih inner
    · exact Nat.le_succ_of_le (ih h)

theorem length_against_dropped {op : Connective} {current : Formula} {ts rest : List Formula}
    (h : against op current ts = .dropped rest) : rest.length ≤ ts.length := by
  induction ts generalizing rest with
  | nil => simp [against] at h
  | cons t ts ih =>
    simp only [against] at h
    split at h <;> try cases h
    · cases inner : against op current ts <;> simp [inner, Outcome.pass] at h
      subst h
      simpa using ih inner
    · exact Nat.le_succ_of_le (ih h)
    · exact Nat.le_refl _

/-- Tests every two operands of a chain in order, up to the first replacement. -/
def scan (op : Connective) : List Formula → Event
  | [] => .stable []
  | current :: ts =>
    match h : against op current ts with
    | .settled rest =>
      have := length_against_settled h
      (scan op rest).pass current
    | .dropped rest =>
      have := length_against_dropped h
      scan op rest
    | .collapse => .collapse
    | .replaceFirst f rest => .replace [] f rest
    | .replaceLater passed f rest => .replace (current :: passed) f rest
termination_by ts => ts.length

/-- A bound on what an outcome leaves of `current` and the operands after it. -/
def Outcome.Bounded (m : Gauge) (current : Formula) (ts : List Formula) : Outcome → Prop
  | .settled rest => m.total rest ≤ m.total ts
  | .dropped rest => m.total rest ≤ m.total ts
  | .collapse => True
  | .replaceFirst f rest => m.size f < m.size current ∧ m.total rest ≤ m.total ts
  | .replaceLater passed f rest => m.total passed + m.size f + m.bin + m.total rest < m.total ts

theorem against_bounded (m : Gauge) (op : Connective) (current : Formula) (ts : List Formula) :
    (against op current ts).Bounded m current ts := by
  induction ts with
  | nil => simp [against, Outcome.Bounded]
  | cons t ts ih =>
    simp only [against]
    split
    · cases inner : against op current ts <;>
        simp only [inner, Outcome.Bounded, Outcome.pass, Gauge.total_cons] at ih ⊢ <;> omega
    · cases inner : against op current ts <;>
        simp only [inner, Outcome.Bounded, Gauge.total_cons] at ih ⊢ <;> omega
    · simp [Outcome.Bounded]
    · simp [Outcome.Bounded]
    · rename_i f replaced
      simpa [Outcome.Bounded] using verdict_replaceLeft_smaller replaced m
    · rename_i f replaced
      have := verdict_replaceRight_smaller replaced m
      simp only [Outcome.Bounded, Gauge.total_nil, Gauge.total_cons]
      omega

/-- A bound on what an event leaves of a chain. -/
def Event.Bounded (m : Gauge) (ts : List Formula) : Event → Prop
  | .stable us => m.total us ≤ m.total ts
  | .collapse => True
  | .replace before f after => m.total before + m.size f + m.bin + m.total after < m.total ts

theorem scan_bounded (m : Gauge) (op : Connective) (ts : List Formula) :
    (scan op ts).Bounded m ts := by
  fun_induction scan op ts with
  | case1 => simp [Event.Bounded]
  | case2 current ts rest settled _ ih =>
    have bound := against_bounded m op current ts
    simp only [settled, Outcome.Bounded] at bound
    cases inner : scan op rest <;>
      simp only [inner, Event.Bounded, Event.pass, Gauge.total_cons] at ih ⊢ <;> omega
  | case3 current ts rest dropped _ ih =>
    have bound := against_bounded m op current ts
    simp only [dropped, Outcome.Bounded] at bound
    cases inner : scan op rest <;>
      simp only [inner, Event.Bounded, Gauge.total_cons] at ih ⊢ <;> omega
  | case4 => simp [Event.Bounded]
  | case5 current ts f rest replaced =>
    have bound := against_bounded m op current ts
    simp only [replaced, Outcome.Bounded] at bound
    simp only [Event.Bounded, Gauge.total_nil, Gauge.total_cons]
    omega
  | case6 current ts passed f rest replaced =>
    have bound := against_bounded m op current ts
    simp only [replaced, Outcome.Bounded] at bound
    simp only [Event.Bounded, Gauge.total_cons]
    omega

/-- A way to simplify formulas that makes none larger. -/
structure Visitor where
  visit : Formula → Formula
  noLarger : ∀ f, (visit f).NoLarger f

/-- The operands that a simplified operand brings into a chain of `op`: none for the neutral
constant, those of a nested chain; the absorbing constant decides the chain. -/
def splice (op : Connective) (f : Formula) : Option (List Formula) :=
  if f = .const op.absorbing then none
  else if f = .const op.neutral then some []
  else some (f.terms op)

theorem total_splice {op : Connective} {f : Formula} {ts : List Formula}
    (h : splice op f = some ts) (m : Gauge) : m.total ts ≤ m.size f + m.bin := by
  unfold splice at h
  split at h
  · cases h
  · split at h
    · cases h
      simp
    · cases h
      exact Nat.le_of_eq (m.total_terms op f)

/-- The simplified operands of a chain in one list, unless one of them decides the chain. -/
def gather (v : Visitor) (op : Connective) : List Formula → Option (List Formula)
  | [] => some []
  | t :: ts =>
    match splice op (v.visit t) with
    | none => none
    | some us => (gather v op ts).map (us ++ ·)

theorem total_replaced_lt (v : Visitor) {op : Connective} {ts before after us : List Formula}
    {f : Formula} (scanned : scan op ts = .replace before f after)
    (spliced : splice op (v.visit f) = some us) (m : Gauge) :
    m.total (before ++ us ++ after) < m.total ts := by
  have bound := scan_bounded m op ts
  simp only [scanned, Event.Bounded] at bound
  have := total_splice spliced m
  have := v.noLarger f m
  simp only [Gauge.total_append]
  omega

/-- Scans a chain until no replacement is left, unless its operands decide it. -/
def settle (v : Visitor) (op : Connective) (ts : List Formula) : Option (List Formula) :=
  match scanned : scan op ts with
  | .stable us => some us
  | .collapse => none
  | .replace before f after =>
    match spliced : splice op (v.visit f) with
    | none => none
    | some us =>
      have := total_replaced_lt v scanned spliced Gauge.nodes
      settle v op (before ++ us ++ after)
termination_by totalSize ts
decreasing_by exact this

theorem settle_eq (v : Visitor) (op : Connective) (ts : List Formula) :
    settle v op ts =
      match scan op ts with
      | .stable us => some us
      | .collapse => none
      | .replace before f after =>
        match splice op (v.visit f) with
        | none => none
        | some us => settle v op (before ++ us ++ after) := by
  rw [settle]
  split <;> rename_i scanned <;> simp only [scanned]
  split <;> rename_i spliced <;> simp only [spliced]

/-- The chain of `op` over operands that are not simplified yet. -/
def chain (v : Visitor) (op : Connective) (ts : List Formula) : Formula :=
  match (gather v op ts).bind (settle v op) with
  | none => .const op.absorbing
  | some us =>
    match factor op us with
    | some f => v.visit f
    | none => op.join us

/-- Simplifies a formula by means of a way to simplify smaller ones. -/
def step (v : Visitor) : Formula → Formula
  | .neg inner => (v.visit inner).foldedNeg
  | .bin op left right => chain v op ((bin op left right).terms op)
  | leaf => leaf

theorem total_gather (v : Visitor) {op : Connective} {ts us : List Formula}
    (h : gather v op ts = some us) (m : Gauge) : m.total us ≤ m.total ts := by
  induction ts generalizing us with
  | nil =>
    cases h
    simp
  | cons t ts ih =>
    simp only [gather] at h
    split at h
    · cases h
    · rename_i first spliced
      obtain ⟨rest, gathered, rfl⟩ := Option.map_eq_some_iff.mp h
      have := total_splice spliced m
      have := v.noLarger t m
      have := ih gathered
      simp only [Gauge.total_append, Gauge.total_cons]
      omega

theorem total_settle (v : Visitor) {op : Connective} {ts us : List Formula}
    (h : settle v op ts = some us) (m : Gauge) : m.total us ≤ m.total ts := by
  fun_induction settle v op ts with
  | case1 ts us' scanned =>
    cases h
    simpa only [scanned, Event.Bounded] using scan_bounded m op ts
  | case2 => cases h
  | case3 => cases h
  | case4 ts before f after scanned us' spliced _ ih =>
    have := total_replaced_lt v scanned spliced m
    have := ih h
    omega

theorem join_size_le (m : Gauge) (op : Connective) (ts : List Formula) :
    m.size (op.join ts) ≤ max m.const (m.total ts - m.bin) := by
  unfold Connective.join
  cases joined : op.join? ts with
  | none => exact Nat.le_max_left _ _
  | some f =>
    have := m.size_join? joined
    simp only [Option.getD_some]
    omega

theorem chain_size_le (v : Visitor) (op : Connective) (ts : List Formula) (m : Gauge) :
    m.size (chain v op ts) ≤ max m.const (m.total ts - m.bin) := by
  unfold chain
  split
  · simp only [Gauge.size]
    omega
  · rename_i us bound
    obtain ⟨gathered, first, second⟩ := Option.bind_eq_some_iff.mp bound
    have := total_gather v first m
    have := total_settle v second m
    split
    · rename_i f factored
      have := factor_size m factored
      have := v.noLarger f m
      omega
    · have := join_size_le m op us
      omega

theorem step_noLarger (v : Visitor) (f : Formula) : (step v f).NoLarger f := by
  cases f with
  | const => exact .refl _
  | var => exact .refl _
  | neg inner =>
    intro m
    have := (foldedNeg_within (v.visit inner)).noLarger m
    have := v.noLarger inner m
    simp only [step, Gauge.size] at *
    omega
  | bin op left right =>
    intro m
    have := chain_size_le v op ((bin op left right).terms op) m
    rw [m.total_terms] at this
    have := m.const_le_bin
    simp only [step, Gauge.size] at *
    omega

/-- Simplifies formulas of up to the given number of nodes and leaves larger ones as they are. -/
def visitor : Nat → Visitor
  | 0 => ⟨id, .refl⟩
  | n + 1 => ⟨step (visitor n), step_noLarger (visitor n)⟩

/-- Compacts every chain of a formula, from the leaves up. -/
def run (f : Formula) : Formula :=
  (visitor f.size).visit f

theorem run_noLarger (f : Formula) : (run f).NoLarger f :=
  (visitor f.size).noLarger f

/-- The two visitors do the same to every formula of fewer than `n` nodes. -/
def Visitor.AgreeBelow (n : Nat) (v w : Visitor) : Prop :=
  ∀ f : Formula, f.size < n → v.visit f = w.visit f

theorem gather_congr {v w : Visitor} (op : Connective) {ts : List Formula}
    (h : ∀ t ∈ ts, v.visit t = w.visit t) : gather v op ts = gather w op ts := by
  induction ts with
  | nil => rfl
  | cons t ts ih =>
    simp only [gather, h t (by simp), ih (fun u hu => h u (by simp [hu]))]

theorem settle_congr {n : Nat} {v w : Visitor} (agree : v.AgreeBelow n w) (op : Connective)
    {ts : List Formula} (bound : totalSize ts ≤ n + 1) : settle v op ts = settle w op ts := by
  fun_induction settle v op ts with
  | case1 ts us scanned => rw [settle_eq, scanned]
  | case2 ts scanned => rw [settle_eq, scanned]
  | case3 ts before f after scanned spliced =>
    have scanBound := scan_bounded Gauge.nodes op ts
    simp only [scanned, Event.Bounded] at scanBound
    rw [agree f (by simp only [totalSize, Formula.size] at *; omega)] at spliced
    rw [settle_eq, scanned]
    simp only [spliced]
  | case4 ts before f after scanned us spliced _ ih =>
    have scanBound := scan_bounded Gauge.nodes op ts
    simp only [scanned, Event.Bounded] at scanBound
    have less := total_replaced_lt v scanned spliced Gauge.nodes
    rw [agree f (by simp only [totalSize, Formula.size] at *; omega)] at spliced
    rw [ih (by simp only [totalSize] at *; omega), settle_eq w op ts, scanned]
    simp only [spliced]

theorem chain_congr {n : Nat} {v w : Visitor} (agree : v.AgreeBelow n w) (op : Connective)
    {ts : List Formula} (small : ∀ t ∈ ts, t.size < n) (bound : totalSize ts ≤ n + 1) :
    chain v op ts = chain w op ts := by
  have settled : (gather v op ts).bind (settle v op) = (gather v op ts).bind (settle w op) := by
    cases gathered : gather v op ts with
    | none => rfl
    | some us =>
      have := total_gather v gathered Gauge.nodes
      exact settle_congr agree op (Nat.le_trans this bound)
  simp only [chain, ← gather_congr op (fun t ht => agree t (small t ht)), ← settled]
  split
  · rfl
  · rename_i us result
    obtain ⟨gathered, first, second⟩ := Option.bind_eq_some_iff.mp result
    have := total_gather v first Gauge.nodes
    have := total_settle v second Gauge.nodes
    split
    · rename_i f factored
      have := factor_size Gauge.nodes factored
      exact agree f (by simp only [totalSize, Formula.size] at *; omega)
    · rfl

theorem step_congr {v w : Visitor} {f : Formula} (agree : v.AgreeBelow f.size w) :
    step v f = step w f := by
  cases f with
  | const => rfl
  | var => rfl
  | neg inner => simp [step, agree inner (by simp [Gauge.size])]
  | bin op left right =>
    exact chain_congr agree op (fun t ht => size_lt_of_mem_terms ht)
      (Nat.le_of_eq (Gauge.nodes.total_terms op _))

theorem visitor_visit {n : Nat} {f : Formula} (h : f.size ≤ n) :
    (visitor n).visit f = run f := by
  induction n using Nat.strongRecOn generalizing f with
  | ind n ih =>
    have positive := f.size_pos
    obtain ⟨k, rfl⟩ : ∃ k, n = k + 1 := ⟨n - 1, by omega⟩
    obtain ⟨j, size⟩ : ∃ j, f.size = j + 1 := ⟨f.size - 1, by omega⟩
    rw [run, size]
    refine step_congr (fun g less => ?_)
    rw [ih k (by omega) (by omega), ih j (by omega) (by omega)]

/-- Compacting as a way to simplify formulas. -/
def compactor : Visitor := ⟨run, run_noLarger⟩

theorem run_eq_step (f : Formula) : run f = step compactor f := by
  have positive := f.size_pos
  obtain ⟨j, size⟩ : ∃ j, f.size = j + 1 := ⟨f.size - 1, by omega⟩
  rw [run, size]
  exact step_congr (fun g less => visitor_visit (by omega))

@[simp] theorem run_const (value : Bool) : run (.const value) = .const value := run_eq_step _

@[simp] theorem run_var (name : String) : run (.var name) = .var name := run_eq_step _

@[simp] theorem run_neg (f : Formula) : run (.neg f) = (run f).foldedNeg := run_eq_step _

theorem run_bin (op : Connective) (left right : Formula) :
    run (.bin op left right) = chain compactor op ((bin op left right).terms op) :=
  run_eq_step _

end Sentential.Simplify.Compact
