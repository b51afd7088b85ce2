import Sentential.Proofs.Solver.Numbering

/-!
# The names that a solver knows

A solver with a base knows the names of the base and of all questions so far, each
of them once, and no others; without a base it starts anew with every question. In
both cases a question is posed as the numbered rows of one table, those of the base
in front, although the rows of the base were numbered long before.
-/

set_option autoImplicit false

namespace Sentential

/-- The question with the rows of the base, if there is one, in front. -/
def Table.withBase (base : Option Table) (t : Table) : Table :=
  match base with
  | none => t
  | some b => b.append t

theorem Table.withBase_names {names : List String} {base : Option Table} {t : Table}
    (hb : ∀ u ∈ base, u.names ⊆ names) (ht : t.names ⊆ names) :
    (t.withBase base).names ⊆ names := by
  cases base with
  | none => exact ht
  | some u =>
    intro name hn
    rcases (names_append u t name).mp hn with hn | hn
    · exact hb u rfl hn
    · exact ht hn

namespace SingleShot

/-- The numbering under which a question is posed. -/
def numbering (s : SingleShot) (t : Table) : Numbering :=
  match s.base with
  | none => Numbering.extend {} t
  | some base => base.numbering.extend t

/-- The tables whose names are known when a question is posed. -/
def seen (base : Option Table) (earlier : List Table) (t : Table) : List Table :=
  match base with
  | none => [t]
  | some b => b :: earlier ++ [t]

theorem self_mem_seen (base : Option Table) (earlier : List Table) (t : Table) :
    t ∈ seen base earlier t := by
  cases base <;> simp [seen]

theorem mem_of_mem_seen {base : Option Table} {earlier : List Table} {t u : Table}
    (h : u ∈ seen base earlier t) : u ∈ base ∨ u ∈ earlier ∨ u = t := by
  cases base with
  | none => exact .inr (.inr (List.mem_singleton.mp h))
  | some b => simpa [seen, eq_comm, or_assoc] using h

/-- The solver has the rows of `base` as its base, and it knows the names of the base and of the
earlier questions. -/
def Knows (base : Option Table) (earlier : List Table) (s : SingleShot) : Prop :=
  match base with
  | none => s.base = none
  | some b => ∃ n : Numbering, s.base = some ⟨n, n.clauses b⟩ ∧ n.names.Nodup ∧
      ∀ name, name ∈ n.names ↔ ∃ u ∈ b :: earlier, name ∈ u.names

theorem ofTable_knows (base : Option Table) : Knows base [] (ofTable? base) := by
  cases base with
  | none => rfl
  | some b =>
    refine ⟨Numbering.extend {} b, rfl, Numbering.extend_nodup {} b .nil, fun name => ?_⟩
    rw [Numbering.mem_extend]
    simp

theorem pose_knows (base : Option Table) (earlier : List Table) (s : SingleShot) (t : Table)
    (h : Knows base earlier s) : Knows base (earlier ++ [t]) (s.pose t).2 := by
  cases base with
  | none =>
    simp only [Knows] at h ⊢
    simp only [pose, h]
  | some b =>
    obtain ⟨n, hb, hd, hn⟩ := h
    have hbase : ∀ name ∈ b.names, name ∈ n.names :=
      fun name hm => (hn name).mpr ⟨b, by simp, hm⟩
    refine ⟨n.extend t, ?_, n.extend_nodup t hd, fun name => ?_⟩
    · simp only [pose, hb, n.clauses_extend b t hbase]
    · rw [Numbering.mem_extend, hn]
      simp [or_assoc, or_and_right, exists_or]

section Question

variable {base : Option Table} {earlier : List Table} {s : SingleShot}

theorem numbering_nodup (h : Knows base earlier s) (t : Table) : (s.numbering t).names.Nodup := by
  cases base with
  | none =>
    simp only [Knows] at h
    simp only [numbering, h]
    exact Numbering.extend_nodup {} t .nil
  | some b =>
    obtain ⟨n, hb, hd, _⟩ := h
    simp only [numbering, hb]
    exact n.extend_nodup t hd

theorem mem_numbering (h : Knows base earlier s) (t : Table) (name : String) :
    name ∈ (s.numbering t).names ↔ ∃ u ∈ seen base earlier t, name ∈ u.names := by
  cases base with
  | none =>
    simp only [Knows] at h
    simp only [numbering, h, Numbering.mem_extend]
    simp [seen]
  | some b =>
    obtain ⟨n, hb, _, hn⟩ := h
    simp only [numbering, hb, Numbering.mem_extend, hn]
    simp [seen, or_assoc, or_and_right, exists_or]

/-- The rows of the base were numbered earlier, but their numbers are still those in force. -/
theorem pose_eq (h : Knows base earlier s) (t : Table) :
    (s.pose t).1 =
      ⟨(s.numbering t).last.toUInt32, (s.numbering t).clauses (t.withBase base)⟩ := by
  cases base with
  | none =>
    simp only [Knows] at h
    simp only [pose, numbering, h, Table.withBase]
  | some b =>
    obtain ⟨n, hb, _, hn⟩ := h
    have hbase : ∀ name ∈ b.names, name ∈ n.names :=
      fun name hm => (hn name).mpr ⟨b, by simp, hm⟩
    simp only [pose, numbering, hb, Table.withBase, Numbering.clauses_append,
      n.clauses_extend b t hbase]

theorem withBase_known (h : Knows base earlier s) (t : Table) :
    (t.withBase base).names ⊆ (s.numbering t).names := by
  have hseen (u : Table) (hu : u ∈ seen base earlier t) : u.names ⊆ (s.numbering t).names :=
    fun name hn => (mem_numbering h t name).mpr ⟨u, hu, hn⟩
  apply Table.withBase_names
  · rintro u rfl
    exact hseen u (by simp [seen])
  · exact hseen t (self_mem_seen base earlier t)

end Question

end SingleShot

end Sentential
