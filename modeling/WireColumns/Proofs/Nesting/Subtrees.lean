import WireColumns.Proofs.Nesting.Growth
import WireColumns.Proofs.Nesting.Records

/-! # Appending subtrees

What the lists of the steps below some nodes become when all that stands below these nodes is
appended (`Nested.appendBelow`). The nodes are consecutive ones of the step above. Appending can be
done node by node (`appendBelow_append`), and on top of nothing it gives the parent lists of the
nodes (`appendBelow_replicate`). Lists in which every parent exists stay so (`Bounded`). -/

namespace WireColumns.Nested

open ParentLists

variable {step : Repetition} {below steps : List Repetition}

/-- The lists after all that is below the nodes has been appended; the first node is node `first` of
the step above. -/
def appendBelow : (steps : List Repetition) → (first : Nat) → List (Nested steps) →
    List (List Nat) → List (List Nat)
  | _ :: below, first, nodes, list :: lists =>
    (list ++ parentsFrom first nodes) ::
      appendBelow below list.length (nodes.flatMap children) lists
  | [], _, _, lists => lists
  | _ :: _, _, _, [] => []

/-- All parents are nodes of the step above, which has `bound` nodes for the first list. -/
def Bounded : (bound : Nat) → List (List Nat) → Prop
  | _, [] => True
  | bound, list :: lists => (∀ parent ∈ list, parent < bound) ∧ Bounded list.length lists

/-! ## The parents of one step -/

theorem parentsFrom_nil (first : Nat) :
    parentsFrom first ([] : List (Nested (step :: below))) = [] := rfl

theorem parentsFrom_cons (first : Nat) (node : Nested (step :: below))
    (nodes : List (Nested (step :: below))) :
    parentsFrom first (node :: nodes) =
      List.replicate node.children.length first ++ parentsFrom (first + 1) nodes := by
  rw [parentsFrom, List.zipIdx_cons, List.flatMap_cons]
  rfl

theorem parentsFrom_append (first : Nat) (ns ms : List (Nested (step :: below))) :
    parentsFrom first (ns ++ ms) =
      parentsFrom first ns ++ parentsFrom (first + ns.length) ms := by
  induction ns generalizing first with
  | nil => rfl
  | cons n ns ih =>
    rw [List.cons_append, parentsFrom_cons, parentsFrom_cons, ih, List.append_assoc,
      List.length_cons, Nat.add_assoc, Nat.add_comm 1]

theorem length_parentsFrom (first : Nat) (nodes : List (Nested (step :: below))) :
    (parentsFrom first nodes).length = (nodes.flatMap children).length := by
  induction nodes generalizing first with
  | nil => rfl
  | cons n ns ih =>
    rw [parentsFrom_cons, List.length_append, List.length_replicate, ih, List.flatMap_cons,
      List.length_append]

theorem lt_of_mem_parentsFrom {first parent : Nat} {nodes : List (Nested (step :: below))}
    (h : parent ∈ parentsFrom first nodes) : parent < first + nodes.length := by
  induction nodes generalizing first with
  | nil => cases h
  | cons n ns ih =>
    rw [parentsFrom_cons, List.mem_append] at h
    rw [List.length_cons]
    rcases h with h | h
    · have := List.eq_of_mem_replicate h
      omega
    · have := ih h
      omega

/-! ## All steps -/

theorem appendBelow_nil (first : Nat) (lists : List (List Nat)) :
    appendBelow steps first [] lists = lists := by
  induction steps generalizing first lists with
  | nil => cases lists <;> rfl
  | cons step below ih =>
    cases lists with
    | nil => rfl
    | cons list lists =>
      rw [appendBelow, parentsFrom_nil, List.append_nil, List.flatMap_nil, ih]

theorem appendBelow_append (first : Nat) (ns ms : List (Nested steps)) (lists : List (List Nat)) :
    appendBelow steps first (ns ++ ms) lists =
      appendBelow steps (first + ns.length) ms (appendBelow steps first ns lists) := by
  induction steps generalizing first lists with
  | nil => cases lists <;> rfl
  | cons step below ih =>
    cases lists with
    | nil => rfl
    | cons list lists =>
      simp only [appendBelow]
      rw [parentsFrom_append, List.append_assoc, List.flatMap_append, ih, List.length_append,
        length_parentsFrom]

theorem length_appendBelow (first : Nat) (nodes : List (Nested steps)) (lists : List (List Nat)) :
    (appendBelow steps first nodes lists).length = lists.length := by
  induction steps generalizing first lists with
  | nil => cases lists <;> rfl
  | cons step below ih =>
    cases lists with
    | nil => rfl
    | cons list lists => rw [appendBelow, List.length_cons, List.length_cons, ih]

theorem appendBelow_replicate (nodes : List (Nested steps)) :
    appendBelow steps 0 nodes (List.replicate steps.length []) = parentLists steps nodes := by
  induction steps with
  | nil => rfl
  | cons step below ih =>
    rw [List.length_cons, List.replicate_succ, appendBelow, parentLists, List.nil_append,
      List.length_nil, ih]

theorem Bounded.appendBelow {first : Nat} {lists : List (List Nat)} (h : Bounded first lists)
    (nodes : List (Nested steps)) :
    Bounded (first + nodes.length) (appendBelow steps first nodes lists) := by
  induction steps generalizing first lists with
  | nil =>
    cases lists with
    | nil => trivial
    | cons list lists => exact ⟨fun parent hp => Nat.lt_add_right _ (h.1 parent hp), h.2⟩
  | cons step below ih =>
    cases lists with
    | nil => trivial
    | cons list lists =>
      refine ⟨fun parent hp => ?_, ?_⟩
      · rcases List.mem_append.1 hp with hp | hp
        · exact Nat.lt_add_right _ (h.1 parent hp)
        · exact lt_of_mem_parentsFrom hp
      · rw [List.length_append, length_parentsFrom]
        exact ih h.2 _

theorem Bounded.replicate (bound n : Nat) : Bounded bound (List.replicate n []) := by
  induction n generalizing bound with
  | zero => trivial
  | succ n ih => exact ⟨fun _ hp => absurd hp List.not_mem_nil, ih _⟩

end WireColumns.Nested
