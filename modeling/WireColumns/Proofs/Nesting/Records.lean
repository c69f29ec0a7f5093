import WireColumns.Nesting.ParentLists

/-! # Nested records

`Nested steps` is a node together with everything below it, where the children at each step are as
many as the step's repetition type allows. What stands above the root step of a pattern has the
records as its children. Two views of such a tree:

* `Nested.parentLists`: for each step the positions of its nodes' parents, step by step;
* `Nested.shred`: the definition and repetition levels of the entries of its leaf column, record by
  record. -/

namespace WireColumns

/-- Whether a parent may have `n` children at a step. -/
def Repetition.Allows : Repetition → Nat → Prop
  | required, n => n = 1
  | optional, n => n ≤ 1
  | repeated, _ => True

theorem Repetition.Allows.le_one {step : Repetition} {n : Nat} (h : step.Allows n)
    (hstep : step ≠ .repeated) : n ≤ 1 := by
  cases step with
  | required => exact Nat.le_of_eq h
  | optional => exact h
  | repeated => exact absurd rfl hstep

/-- A node and what stands below it, at the given steps. -/
def Nested : List Repetition → Type
  | [] => Unit
  | step :: below => { children : List (Nested below) // step.Allows children.length }

namespace Nested

variable {step : Repetition} {below : List Repetition}

/-- The nodes one step down. -/
def children (node : Nested (step :: below)) : List (Nested below) := node.1

theorem allows_children (node : Nested (step :: below)) : step.Allows node.children.length :=
  node.2

theorem step_ne_required {node : Nested (step :: below)} (h : node.children = []) :
    step ≠ .required := by
  rintro rfl
  have hallows := node.allows_children
  rw [h] at hallows
  cases hallows

theorem others_eq_nil {node : Nested (step :: below)} {child : Nested below}
    {others : List (Nested below)} (h : node.children = child :: others)
    (hstep : step ≠ .repeated) : others = [] := by
  have hle := node.allows_children.le_one hstep
  rw [h] at hle
  exact List.length_eq_zero_iff.1 (Nat.le_zero.1 (Nat.le_of_succ_le_succ hle))

/-! ## Step by step -/

/-- The parents of the children of nodes, of which the first is node `first` of its step. -/
def parentsFrom (first : Nat) (nodes : List (Nested (step :: below))) : List Nat :=
  (nodes.zipIdx first).flatMap fun (node, position) => List.replicate node.children.length position

/-- For each step, and each of its nodes in document order, the position of the node's parent among
the nodes of the step above. Step 0 has the children of the given nodes. -/
def parentLists : (steps : List Repetition) → List (Nested steps) → List (List Nat)
  | [], _ => []
  | _ :: below, nodes => parentsFrom 0 nodes :: parentLists below (nodes.flatMap children)

/-! ## Record by record -/

/-- The definition level below a step, and likewise the repetition level of a further child there:
required steps do not count for the one, and only repeated ones count for the other. -/
def nextDefinition (definition : Nat) (step : Repetition) : Nat :=
  if step = .required then definition else definition + 1

def nextRepetition (repetition : Nat) (step : Repetition) : Nat :=
  if step = .repeated then repetition + 1 else repetition

theorem le_nextDefinition (definition : Nat) (step : Repetition) :
    definition ≤ nextDefinition definition step := by
  unfold nextDefinition
  split <;> omega

theorem le_nextRepetition (repetition : Nat) (step : Repetition) :
    repetition ≤ nextRepetition repetition step := by
  unfold nextRepetition
  split <;> omega

theorem nextRepetition_le (repetition : Nat) (step : Repetition) :
    nextRepetition repetition step ≤ repetition + 1 := by
  unfold nextRepetition
  split <;> omega

/-- The levels of the entries for a node that has the given definition level itself, where
`repetition` repeated steps lie above. The first entry has the repetition level `lead`; every
further child of a node begins with the repetition level of its step. A node without children, and
a leaf, has one entry. -/
def shredFrom : (steps : List Repetition) → (definition repetition lead : Nat) → Nested steps →
    List (Nat × Nat)
  | [], definition, _, lead, _ => [(definition, lead)]
  | step :: below, definition, repetition, lead, node =>
    match node.children with
    | [] => [(definition, lead)]
    | child :: others =>
      shredFrom below (nextDefinition definition step) (nextRepetition repetition step) lead
          child ++
        others.flatMap (shredFrom below (nextDefinition definition step)
          (nextRepetition repetition step) (nextRepetition repetition step))

/-- The levels of the entries for records. The root step does not count. -/
def shred : (steps : List Repetition) → Nested steps → List (Nat × Nat)
  | [], _ => []
  | _ :: below, records => records.children.flatMap (shredFrom below 0 0 0)

end Nested

end WireColumns
