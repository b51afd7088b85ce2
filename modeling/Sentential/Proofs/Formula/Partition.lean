import Sentential.Proofs.Formula.Probing
import Sentential.Proofs.Formula.Rearrangement

/-!
# Groups as a partition of the inner nodes

The inner nodes of a formula have positions in its post-order. A list of groups
partitions them when it can be read off a list of lists of positions in which
every position occurs once, upwards in each list, the lists being in the order of
their first positions. One insertion takes a partition of some nodes to one of
those nodes and the next, whatever key it uses, so a finder partitions the nodes
of each formula. It hands out all that it holds, so earlier formulas leave no
trace.
-/

set_option autoImplicit false

namespace Sentential

open Formula

/-- The groups hold the nodes at the given positions. Every position belongs to exactly one group,
the positions in a group increase, and so do the first positions of the groups. -/
structure Partitions (nodes : List Formula) (groups : List (List Formula))
    (positions : List (List Nat)) : Prop where
  members : positions.map (fun ps => ps.map (fun i => nodes[i]?)) = groups.map (List.map some)
  once : positions.flatten.Perm (List.range nodes.length)
  nonempty : ∀ ps ∈ positions, ps ≠ []
  ascending : ∀ ps ∈ positions, ps.Pairwise (· < ·)
  ordered : (positions.filterMap List.head?).Pairwise (· < ·)

namespace Partitions

theorem empty : Partitions [] [] [] :=
  ⟨rfl, .refl _, by simp, by simp, .nil⟩

variable {nodes : List Formula} {groups : List (List Formula)} {positions : List (List Nat)}

theorem lt_length (h : Partitions nodes groups positions) {ps : List Nat} (hp : ps ∈ positions)
    {i : Nat} (hi : i ∈ ps) : i < nodes.length :=
  List.mem_range.mp (h.once.subset (List.mem_flatten_of_mem hp hi))

/-- Every node is a member of some group. -/
theorem mem (h : Partitions nodes groups positions) {f : Formula} (hf : f ∈ nodes) :
    ∃ group ∈ groups, f ∈ group := by
  obtain ⟨i, hi, rfl⟩ := List.mem_iff_getElem.mp hf
  obtain ⟨ps, hps, hip⟩ := List.mem_flatten.mp (h.once.mem_iff.mpr (List.mem_range.mpr hi))
  have hm : ps.map (fun i => nodes[i]?) ∈ groups.map (List.map some) :=
    h.members ▸ List.mem_map_of_mem hps
  obtain ⟨group, hg, he⟩ := List.mem_map.mp hm
  have hnode : some nodes[i] ∈ group.map some := by
    rw [he]
    exact List.mem_map.mpr ⟨i, hip, List.getElem?_eq_getElem hi⟩
  exact ⟨group, hg, by simpa using hnode⟩

/-- A node that comes later changes nothing at the earlier positions. -/
theorem members_append (h : Partitions nodes groups positions) (f : Formula) {ps : List Nat}
    (hp : ps ∈ positions) :
    ps.map (fun i => (nodes ++ [f])[i]?) = ps.map (fun i => nodes[i]?) :=
  List.map_congr_left (fun _ hi => List.getElem?_append_left (h.lt_length hp hi))

/-- The next node opens a group of its own. -/
theorem opened (h : Partitions nodes groups positions) (f : Formula) :
    Partitions (nodes ++ [f]) (groups ++ [[f]]) (positions ++ [[nodes.length]]) where
  members := by
    rw [List.map_append, List.map_append, ← h.members,
      List.map_congr_left (fun ps hp => h.members_append f hp)]
    simp
  once := by
    rw [List.flatten_append, List.length_append, List.length_singleton, List.range_succ]
    exact h.once.append_right _
  nonempty := by
    rw [List.forall_mem_append]
    exact ⟨h.nonempty, by simp⟩
  ascending := by
    rw [List.forall_mem_append]
    exact ⟨h.ascending, by simp⟩
  ordered := by
    rw [List.filterMap_append, List.pairwise_append]
    refine ⟨h.ordered, by simp, ?_⟩
    intro i hi j hj
    obtain ⟨ps, hp, hh⟩ := List.mem_filterMap.mp hi
    have hlt := h.lt_length hp (List.mem_of_head? hh)
    simp at hj
    omega

/-- The next node joins one of the groups. -/
theorem joined {before after : List (List Formula)} {members : List Formula}
    (h : Partitions nodes (before ++ members :: after) positions) (f : Formula) :
    ∃ positions', Partitions (nodes ++ [f]) (before ++ (members ++ [f]) :: after) positions' := by
  -- the lists of positions stand where their groups stand
  have hm := h.members
  rw [List.map_append, List.map_cons, List.map_eq_append_iff] at hm
  obtain ⟨pb, rest, rfl, hb, hr⟩ := hm
  obtain ⟨ps, pa, rfl, hp, ha⟩ := List.map_eq_cons_iff.mp hr
  have hps : ps ∈ pb ++ ps :: pa := by simp
  have hb' := List.map_congr_left (fun qs hq => h.members_append f (List.mem_append_left _ hq))
  have ha' := List.map_congr_left (fun qs hq =>
    h.members_append f (List.mem_append_right pb (List.mem_cons_of_mem ps hq)))
  refine ⟨pb ++ (ps ++ [nodes.length]) :: pa, ?_, ?_, ?_, ?_, ?_⟩
  · rw [List.map_append, List.map_cons, hb', ha', hb, ha, List.map_append,
      h.members_append f hps, hp]
    simp
  · rw [List.length_append, List.length_singleton, List.range_succ]
    refine List.Perm.trans ?_ (h.once.append_right [nodes.length])
    simp only [List.flatten_append, List.flatten_cons, List.append_assoc]
    exact ((List.perm_append_comm).append_left ps).append_left pb.flatten
  · have hn := h.nonempty
    simp only [List.forall_mem_append, List.forall_mem_cons] at hn ⊢
    exact ⟨hn.1, by simp, hn.2.2⟩
  · have hs := h.ascending
    simp only [List.forall_mem_append, List.forall_mem_cons] at hs ⊢
    refine ⟨hs.1, ?_, hs.2.2⟩
    rw [List.pairwise_append]
    refine ⟨hs.2.1, by simp, ?_⟩
    intro i hi j hj
    rw [List.mem_singleton.mp hj]
    exact h.lt_length hps hi
  · have hh : (ps ++ [nodes.length]).head? = ps.head? :=
      List.head?_append_of_ne_nil ps (h.nonempty ps hps)
    have ho := h.ordered
    rw [List.filterMap_append, List.filterMap_cons] at ho ⊢
    rw [hh]
    exact ho

end Partitions

namespace Groups

/-- The groups partition the nodes that were inserted. -/
def Hold (nodes : List Formula) (groups : List Group) : Prop :=
  ∃ positions, Partitions nodes (groups.map Group.members) positions

theorem insert_hold {nodes : List Formula} {groups : List Group} (h : Hold nodes groups)
    (f : Formula) (k : UInt64) : Hold (nodes ++ [f]) (insert groups f k) := by
  obtain ⟨positions, hp⟩ := h
  rcases insert_cases groups f k with ⟨before, g, after, rfl, _, hi⟩ | ⟨k', hi⟩
  · rw [List.map_append, List.map_cons] at hp
    obtain ⟨positions', hj⟩ := hp.joined f
    rw [hi, Hold, List.map_append, List.map_cons]
    exact ⟨positions', hj⟩
  · rw [hi, Hold, List.map_append]
    exact ⟨_, hp.opened f⟩

theorem inserts_hold (leafKey : Formula → UInt64) (later : List Formula) {nodes : List Formula}
    {groups : List Group} (h : Hold nodes groups) :
    Hold (nodes ++ later)
      (later.foldl (fun groups g => insert groups g (g.key leafKey)) groups) := by
  induction later generalizing nodes groups with
  | nil => rwa [List.append_nil]
  | cons node later ih =>
    rw [← List.singleton_append, ← List.append_assoc]
    exact ih (insert_hold h node (node.key leafKey))

theorem ofFormula_hold (leafKey : Formula → UInt64) (f : Formula) :
    Hold f.innerNodes (ofFormula leafKey f) := by
  have hempty : Hold [] [] := ⟨[], .empty⟩
  exact inserts_hold leafKey f.innerNodes hempty

end Groups

theorem Group.Uniform.pairwise {g : Group} (h : g.Uniform) :
    ∀ a ∈ g.members, ∀ b ∈ g.members, a.alike b = true := by
  have hfirst : ∀ a ∈ g.members, g.first.unordered = a.unordered := by
    intro a ha
    rcases List.mem_cons.mp ha with rfl | ha
    · rfl
    · exact (alike_iff_unordered _ _).mp (h a ha)
  intro a ha b hb
  rw [alike_iff_unordered, ← hfirst a ha, hfirst b hb]

namespace Finder

/-- A visit adds the inner nodes one by one in post-order. -/
theorem visit_eq_foldl (leafKey : Formula → UInt64) (finder : Finder) (f : Formula) :
    finder.visit leafKey f = f.innerNodes.foldl (add leafKey) finder := by
  induction f generalizing finder with
  | const => rfl
  | var => rfl
  | neg inner ih =>
    rw [visit, ih, innerNodes_neg, List.foldl_append]
    rfl
  | bin op left right ihl ihr =>
    rw [visit, ihr, ihl, innerNodes_bin, List.foldl_append, List.foldl_append]
    rfl

theorem pending_foldl_add (leafKey : Formula → UInt64) (nodes : List Formula) (finder : Finder) :
    (nodes.foldl (add leafKey) finder).pending =
      nodes.foldl (fun groups g => Groups.insert groups g (g.key leafKey)) finder.pending := by
  induction nodes generalizing finder with
  | nil => rfl
  | cons node nodes ih => exact ih (finder.add leafKey node)

theorem find_new (leafKey : Formula → UInt64) (f : Formula) :
    (({} : Finder).find leafKey f).1 = (Groups.ofFormula leafKey f).map Group.members := by
  rw [find, visit_eq_foldl, pending_foldl_add]
  rfl

/-- No finder keeps groups between two requests. -/
theorem findAll_new (leafKey : Formula → UInt64) (fs : List Formula) :
    (({} : Finder).findAll leafKey fs).2 = {} := by
  induction fs with
  | nil => rfl
  | cons f fs ih => exact ih

theorem length_pending_le (leafKey : Formula → UInt64) (nodes : List Formula) (finder : Finder) :
    (nodes.foldl (add leafKey) finder).pending.length ≤ finder.pending.length + nodes.length := by
  induction nodes generalizing finder with
  | nil => exact Nat.le_refl _
  | cons node nodes ih =>
    have hnode : (finder.add leafKey node).pending.length ≤ finder.pending.length + 1 :=
      Groups.length_insert_le finder.pending node (node.key leafKey)
    have hrest := ih (finder.add leafKey node)
    rw [List.foldl_cons, List.length_cons]
    omega

/-- A finder that was used for any formulas before partitions the inner nodes of the next one, as
a new finder does, whatever the keys of leaves are. The members of a group are alike each other,
not only its first member. The search for the group of a node ends at the first key of its
sequence that will do, unless `2 ^ 62` nodes came before it. -/
theorem grouping_partitions_inner_nodes (leafKey : Formula → UInt64) (history : List Formula)
    (f : Formula) :
    (∃ positions, Partitions f.innerNodes
      ((({} : Finder).findAll leafKey history).2.find leafKey f).1 positions) ∧
    (∀ group ∈ ((({} : Finder).findAll leafKey history).2.find leafKey f).1,
      ∀ a ∈ group, ∀ b ∈ group, a.alike b = true) ∧
    ((({} : Finder).findAll leafKey history).2.find leafKey f).1 =
      (({} : Finder).find leafKey f).1 ∧
    ∀ before node after, f.innerNodes = before ++ node :: after → before.length < 2 ^ 62 →
      Groups.TakesFirstSlot (before.foldl (add leafKey) {}).pending node (node.key leafKey) := by
  rw [findAll_new, find_new]
  refine ⟨Groups.ofFormula_hold leafKey f, ?_, rfl, ?_⟩
  · intro group hg
    obtain ⟨g, hm, rfl⟩ := List.mem_map.mp hg
    exact (Groups.ofFormula_uniform leafKey f g hm).pairwise
  · intro before node after _ hlt
    have hle := length_pending_le leafKey before {}
    exact Groups.takesFirstSlot (by simp at hle; omega) _

/-- A formula with two pairs of alike nodes and two nodes that are alike no other. -/
def paired : Formula :=
  .and (.neg (.and (.var "a") (.var "b"))) (.or (.neg (.and (.var "b") (.var "a"))) (.var "a"))

/-- When all leaves have key zero, so has every node, and all groups but the first are found by
further tries. -/
theorem grouping_partitions_inner_nodes_colliding :
    ∃ positions, Partitions paired.innerNodes
      [[.and (.var "a") (.var "b"), .and (.var "b") (.var "a")],
        [.neg (.and (.var "a") (.var "b")), .neg (.and (.var "b") (.var "a"))],
        [.or (.neg (.and (.var "b") (.var "a"))) (.var "a")],
        [paired]] positions := by
  have hp := (grouping_partitions_inner_nodes (fun _ => 0) [paired] paired).1
  have hf : ((({} : Finder).findAll (fun _ => 0) [paired]).2.find (fun _ => 0) paired).1 =
      [[.and (.var "a") (.var "b"), .and (.var "b") (.var "a")],
        [.neg (.and (.var "a") (.var "b")), .neg (.and (.var "b") (.var "a"))],
        [.or (.neg (.and (.var "b") (.var "a"))) (.var "a")],
        [paired]] := by
    decide +kernel
  rw [hf] at hp
  exact hp

end Finder

end Sentential
