import WireColumns.Nesting.Pattern

/-! # Parent lists

The nodes of a sequence of records, step by step: for each step of a pattern the list that says
of every node which node of the step above it is its parent. `ParentLists.add` appends the nodes
that an entry of a leaf column brings.
-/

namespace WireColumns

/-- One list per step. The list of step `i` holds for each of its nodes the position of its parent
among the nodes of step `i - 1`; at the root it holds zeros. -/
structure ParentLists where
  pattern : Pattern
  lists : Array (Array Nat)

namespace ParentLists

/-- No nodes. -/
def empty (pattern : Pattern) : ParentLists := ⟨pattern, Array.replicate pattern.steps.length #[]⟩

/-- Appends a node at a step, below the last node of the step above it. An optional step has at
most one node under a parent, so nothing is appended where that node is there already. -/
def openStep (definition repetition : Int16) (i : Nat) (step : Repetition) :
    EStateM Corruption (Array (Array Nat)) Unit := fun lists =>
  if i = 0 then .ok () (lists.modify 0 (·.push 0))
  else
    match (lists[i - 1]?.getD #[]).size with
    | 0 => .error (.orphanLevels definition repetition (i - 1)) lists
    | parent + 1 =>
      .ok () <| lists.modify i fun list =>
        if step = .optional ∧ list.back? = some parent then list else list.push parent

/-- Appends a node at each of the given steps, of which the first is step `i`. -/
def openSteps (definition repetition : Int16) (i : Nat) :
    List Repetition → EStateM Corruption (Array (Array Nat)) Unit
  | [] => return
  | step :: rest => do
    openStep definition repetition i step
    openSteps definition repetition (i + 1) rest

/-- Appends the nodes of an entry: one at each step that it has a node at and does not share with
the entry before it. Fails if the step it continues at has no node yet. -/
def add (definition repetition : Int16) : EStateM Corruption ParentLists Unit := fun p =>
  let ⟨pattern, lists⟩ := p
  let shared := pattern.sharedSteps repetition
  let own := (pattern.steps.take (pattern.definedSteps definition)).drop shared
  match openSteps definition repetition shared own lists with
  | .ok _ lists => .ok () ⟨pattern, lists⟩
  | .error e lists => .error e ⟨pattern, lists⟩

/-- Appends the nodes of entries in order, up to the first that fails. -/
def addAll : List (Int16 × Int16) → EStateM Corruption ParentLists Unit
  | [] => return
  | (definition, repetition) :: rest => do
    add definition repetition
    addAll rest

/-- Appends the nodes of the entries with the given levels. -/
def addLevels (definitions repetitions : List Int16) : EStateM Error ParentLists Unit := fun p =>
  if definitions.length ≠ repetitions.length then
    .error (.fault (.levelLengths definitions.length repetitions.length)) p
  else
    match addAll (definitions.zip repetitions) p with
    | .ok _ p => .ok () p
    | .error e p => .error (.corrupt e) p

/-- The same pattern without any nodes. -/
def clear (p : ParentLists) : ParentLists := empty p.pattern

end ParentLists

end WireColumns
