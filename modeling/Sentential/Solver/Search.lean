import Sentential.Sorted

/-!
# Backtracking search

The search works on sets of clauses over numbered variables. A clause that has
both signs of a variable is true whatever is chosen and is left out; every other
clause is a set of choices, one of which has to be made. A choice removes the
clauses that it satisfies and itself, reversed, from the others. A clause with a
single choice forces it, and so does a variable that occurs with one sign only;
otherwise the search tries the first choice of the first clause both ways.

Each choice made occurs in some clause, so the number of choices left in the
clauses decreases.
-/

set_option autoImplicit false

namespace Sentential.Search

/-- A value for a variable. In a clause it is the literal that this value makes true. -/
structure Choice where
  index : Nat
  value : Bool
  deriving DecidableEq, Repr

namespace Choice

def flip (c : Choice) : Choice := { c with value := !c.value }

def order : Choice → Choice → Ordering :=
  compareLex (compareOn Choice.index) (compareOn Choice.value)

/-- The choice that a signed number stands for. Only numbers above zero are positive. -/
def ofInt (n : Int) : Choice := ⟨n.natAbs, decide (0 < n)⟩

end Choice

/-- The choices in a clause, by increasing variable. -/
abbrev Clause := List Choice

abbrev Model := List Choice

/-- The clause over signed numbers, unless it has both signs of a variable. -/
def clause? (numbers : List Int) : Option Clause :=
  let choices := numbers.map Choice.ofInt
  if choices.any (fun c => choices.contains c.flip) then none
  else some (Sorted.ofList Choice.order choices)

/-- The set of the given clauses. -/
def clauseSet (clauses : List Clause) : List Clause :=
  Sorted.ofList (List.compareLex Choice.order) clauses

/-- What is left of a clause after a choice, unless the choice satisfies it. -/
def cut (c : Choice) (clause : Clause) : Option Clause :=
  if clause.contains c then none else some (clause.filter (fun d => d.index != c.index))

/-- The clauses that are left after a choice. -/
def assign (c : Choice) (clauses : List Clause) : List Clause :=
  clauseSet (clauses.filterMap (cut c))

/-- The number of choices in all clauses. -/
def weight : List Clause → Nat
  | [] => 0
  | clause :: clauses => clause.length + weight clauses

/-- The choice in the first clause that has no other. -/
def unit? : List Clause → Option Choice
  | [] => none
  | [c] :: _ => some c
  | _ :: clauses => unit? clauses

/-- The first variable that occurs with one sign only. -/
def pure? (clauses : List Clause) : Option Choice :=
  let choices := Sorted.ofList Choice.order clauses.flatten
  choices.find? (fun c => !choices.contains c.flip)

/-- What to do next with a set of clauses. -/
inductive Move where
  | solved
  | conflict
  | force (c : Choice)
  | branch (c : Choice)
  deriving DecidableEq, Repr

def move (clauses : List Clause) : Move :=
  if clauses.isEmpty then .solved
  else if clauses.contains [] then .conflict
  else match (unit? clauses).or (pure? clauses) with
  | some c => .force c
  | none =>
    match clauses.flatten with
    | c :: _ => .branch c
    | [] => .conflict

theorem weight_of_perm {clauses others : List Clause} (h : clauses.Perm others) :
    weight clauses = weight others := by
  induction h with
  | nil => rfl
  | cons a _ ih => simp only [weight, ih]
  | swap a b rest =>
    simp only [weight]
    omega
  | trans _ _ ih1 ih2 => exact ih1.trans ih2

theorem weight_of_sublist {clauses others : List Clause} (h : clauses.Sublist others) :
    weight clauses ≤ weight others := by
  induction h with
  | slnil => exact Nat.le_refl _
  | cons a _ ih =>
    simp only [weight] at *
    omega
  | cons_cons a _ ih =>
    simp only [weight] at *
    omega

theorem weight_clauseSet_le (clauses : List Clause) : weight (clauseSet clauses) ≤ weight clauses :=
  Nat.le_trans (weight_of_sublist (Sorted.squeeze_sublist _ _))
    (Nat.le_of_eq (weight_of_perm (List.mergeSort_perm _ _)))

theorem weight_filterMap_cut_le (c : Choice) (clauses : List Clause) :
    weight (clauses.filterMap (cut c)) ≤ weight clauses := by
  induction clauses with
  | nil => exact Nat.le_refl _
  | cons clause clauses ih =>
    simp only [List.filterMap_cons, cut]
    split
    · rename_i satisfied
      simp only [weight] at *
      omega
    · rename_i rest satisfied
      split at satisfied
      · cases satisfied
      · cases satisfied
        have := clause.length_filter_le (fun d => d.index != c.index)
        simp only [weight] at *
        omega

theorem length_filter_index_lt {c d : Choice} {clause : Clause} (h : d ∈ clause)
    (same : d.index = c.index) :
    (clause.filter (fun e => e.index != c.index)).length < clause.length := by
  refine Nat.lt_of_le_of_ne (List.length_filter_le _ _) (fun equal => ?_)
  have := List.length_filter_eq_length_iff.mp equal d h
  simp [same] at this

theorem weight_assign_lt {c d : Choice} {clauses : List Clause} (h : d ∈ clauses.flatten)
    (same : d.index = c.index) : weight (assign c clauses) < weight clauses := by
  refine Nat.lt_of_le_of_lt (weight_clauseSet_le _) ?_
  induction clauses with
  | nil => simp at h
  | cons clause clauses ih =>
    have rest := weight_filterMap_cut_le c clauses
    simp only [List.flatten_cons, List.mem_append] at h
    simp only [List.filterMap_cons, cut]
    split
    · rename_i satisfied
      split at satisfied
      · rename_i member
        have positive : 0 < clause.length := by
          cases clause with
          | nil => simp at member
          | cons => simp
        simp only [weight] at *
        omega
      · cases satisfied
    · rename_i left satisfied
      split at satisfied
      · cases satisfied
      · cases satisfied
        have shorter := clause.length_filter_le (fun e => e.index != c.index)
        rcases h with h | h
        · have := length_filter_index_lt h same
          simp only [weight] at *
          omega
        · have := ih h
          simp only [weight] at *
          omega

theorem mem_of_unit? {clauses : List Clause} {c : Choice} (h : unit? clauses = some c) :
    c ∈ clauses.flatten := by
  fun_induction unit? clauses with
  | case1 => cases h
  | case2 d rest =>
    cases h
    simp
  | case3 clause clauses _ ih => simp [ih h]

theorem mem_of_pure? {clauses : List Clause} {c : Choice} (h : pure? clauses = some c) :
    c ∈ clauses.flatten :=
  Sorted.mem_of_mem_ofList (List.mem_of_find?_eq_some h)

theorem mem_of_move_force {clauses : List Clause} {c : Choice} (h : move clauses = .force c) :
    c ∈ clauses.flatten := by
  unfold move at h
  repeat' split at h
  all_goals cases h
  rename_i found
  rcases Option.or_eq_some_iff.mp found with unit | ⟨_, pure⟩
  · exact mem_of_unit? unit
  · exact mem_of_pure? pure

theorem mem_of_move_branch {clauses : List Clause} {c : Choice} (h : move clauses = .branch c) :
    c ∈ clauses.flatten := by
  unfold move at h
  repeat' split at h
  all_goals cases h
  simp_all

/-- The choices that satisfy all clauses, in front of those made so far, if there are any. -/
def search (clauses : List Clause) (made : Model) : Option Model :=
  match h : move clauses with
  | .solved => some made
  | .conflict => none
  | .force c =>
    have := weight_assign_lt (mem_of_move_force h) rfl
    search (assign c clauses) (c :: made)
  | .branch c =>
    have := weight_assign_lt (mem_of_move_branch h) rfl
    match search (assign c clauses) (c :: made) with
    | some model => some model
    | none =>
      have : weight (assign c.flip clauses) < weight clauses :=
        weight_assign_lt (c := c.flip) (mem_of_move_branch h) rfl
      search (assign c.flip clauses) (c.flip :: made)
termination_by weight clauses

/-- A model of clauses over signed numbers. -/
def model? (clauses : List (List Int)) : Option Model :=
  search (clauseSet (clauses.filterMap clause?)) []

/-- Some choice of values satisfies all clauses over signed numbers. -/
def satisfiable (clauses : List (List Int)) : Bool :=
  (model? clauses).isSome

end Sentential.Search
