import WireColumns.Nesting.ParentLists

/-! # Opening nodes

`ParentLists.openSteps` in terms of plain lists: `grow` appends a node at each of some steps, below
the node `parent` of the step above them, and leaves an optional step alone where its node is there
already. The nodes last opened form a path (`OpenPath`): each is a child of the one above it. -/

namespace WireColumns.ParentLists

/-- The list of a step after a node has been opened there. -/
def openNode (parent : Nat) (step : Repetition) (list : List Nat) : List Nat :=
  if step = .optional ∧ list.getLast? = some parent then list else list ++ [parent]

/-- The lists of some steps after a node has been opened at each, from the upmost down. -/
def grow : (parent : Nat) → List Repetition → List (List Nat) → List (List Nat)
  | parent, step :: rest, list :: lists =>
    let list := openNode parent step list
    list :: grow (list.length - 1) rest lists
  | _, [], lists => lists
  | _, _ :: _, [] => []

/-- The last node of the last of the steps; `parent` is the one of the step above them. -/
def lastNode : (parent : Nat) → List (List Nat) → Nat
  | parent, [] => parent
  | _, list :: lists => lastNode (list.length - 1) lists

/-- The last node of every step is a child of the last node of the step above it. -/
def OpenPath : (parent : Nat) → List (List Nat) → Prop
  | _, [] => True
  | parent, list :: lists => list.getLast? = some parent ∧ OpenPath (list.length - 1) lists

/-- The lists of steps as they are kept. -/
def toArrays (lists : List (List Nat)) : Array (Array Nat) := (lists.map List.toArray).toArray

/-! ## Appending lists -/

theorem lastNode_append (parent : Nat) (ls ms : List (List Nat)) :
    lastNode parent (ls ++ ms) = lastNode (lastNode parent ls) ms := by
  induction ls generalizing parent with
  | nil => rfl
  | cons l ls ih => exact ih _

theorem openPath_append {parent : Nat} {ls ms : List (List Nat)} :
    OpenPath parent (ls ++ ms) ↔ OpenPath parent ls ∧ OpenPath (lastNode parent ls) ms := by
  induction ls generalizing parent with
  | nil => simp [OpenPath, lastNode]
  | cons l ls ih => simp only [List.cons_append, OpenPath, lastNode, ih, and_assoc]

@[simp] theorem grow_nil (parent : Nat) (lists : List (List Nat)) :
    grow parent [] lists = lists := by
  cases lists <;> rfl

theorem length_grow (parent : Nat) (steps : List Repetition) (lists : List (List Nat)) :
    (grow parent steps lists).length = lists.length := by
  induction steps generalizing parent lists with
  | nil => rw [grow_nil]
  | cons step steps ih =>
    cases lists with
    | nil => rfl
    | cons l lists => simp only [grow, List.length_cons, ih]

theorem grow_append {steps : List Repetition} {ls : List (List Nat)}
    (h : steps.length = ls.length) (parent : Nat) (steps' : List Repetition)
    (ms : List (List Nat)) :
    grow parent (steps ++ steps') (ls ++ ms) =
      grow parent steps ls ++ grow (lastNode parent (grow parent steps ls)) steps' ms := by
  induction steps generalizing parent ls with
  | nil =>
    obtain rfl := List.length_eq_zero_iff.1 h.symm
    rfl
  | cons step steps ih =>
    cases ls with
    | nil => simp at h
    | cons l ls =>
      simp only [List.cons_append, grow, lastNode]
      rw [ih (by simpa using h)]

/-! ## The open path -/

theorem openNode_repeated (parent : Nat) (list : List Nat) :
    openNode parent .repeated list = list ++ [parent] := if_neg fun h => nomatch h.1

theorem openNode_of_lt {parent : Nat} {list : List Nat} (h : ∀ other ∈ list, other < parent)
    (step : Repetition) : openNode parent step list = list ++ [parent] :=
  if_neg fun hopen => Nat.lt_irrefl _ (h parent (List.mem_of_getLast? hopen.2))

theorem getLast?_openNode (parent : Nat) (step : Repetition) (list : List Nat) :
    (openNode parent step list).getLast? = some parent := by
  unfold openNode
  split
  next h => exact h.2
  next => simp

theorem openPath_grow {steps : List Repetition} {lists : List (List Nat)}
    (h : steps.length = lists.length) (parent : Nat) :
    OpenPath parent (grow parent steps lists) := by
  induction steps generalizing parent lists with
  | nil =>
    obtain rfl := List.length_eq_zero_iff.1 h.symm
    trivial
  | cons step steps ih =>
    cases lists with
    | nil => simp at h
    | cons l lists => exact ⟨getLast?_openNode .., ih (by simpa using h) _⟩

/-- Opening optional steps that are open already changes nothing. -/
theorem grow_eq_self {steps : List Repetition} (hopt : ∀ step ∈ steps, step = .optional)
    {lists : List (List Nat)} {parent : Nat} (h : OpenPath parent lists) :
    grow parent steps lists = lists := by
  induction steps generalizing parent lists with
  | nil => rw [grow_nil]
  | cons step steps ih =>
    cases lists with
    | nil => rfl
    | cons l lists =>
      have hl : openNode parent step l = l :=
        if_pos ⟨hopt step List.mem_cons_self, h.1⟩
      simp only [grow, hl]
      rw [ih (fun s hs => hopt s (List.mem_cons_of_mem _ hs)) h.2]

/-! ## The lists as they are kept -/

theorem modify_toArrays (f : Array Nat → Array Nat) (pre : List (List Nat)) (list : List Nat)
    (rest : List (List Nat)) :
    (toArrays (pre ++ list :: rest)).modify pre.length f =
      toArrays (pre ++ (f list.toArray).toList :: rest) := by
  simp only [toArrays, List.modify_toArray, List.map_append, List.map_cons, Array.toArray_toList]
  congr 1
  induction pre with
  | nil => rfl
  | cons l pre ih => simpa using ih

variable (definition repetition : Int16) {pre : List (List Nat)} {rest : List (List Nat)}

theorem openStep_toArrays (hpath : OpenPath 0 pre) {step : Repetition}
    (hroot : pre = [] → step ≠ .optional) (list : List Nat) :
    openStep definition repetition pre.length step (toArrays (pre ++ list :: rest)) =
      .ok () (toArrays (pre ++ openNode (lastNode 0 pre) step list :: rest)) := by
  rcases List.eq_nil_or_concat pre with rfl | ⟨front, last, rfl⟩
  · have hmodify := modify_toArrays (·.push 0) [] list rest
    have hopen : openNode 0 step list = list ++ [0] := if_neg fun h => hroot rfl h.1
    rw [openStep, if_pos List.length_nil, lastNode, hopen]
    rw [List.length_nil, Array.toList_push] at hmodify
    rw [hmodify]
  · rw [List.concat_eq_append] at hpath ⊢
    obtain ⟨-, hlast, -⟩ := openPath_append.1 hpath
    obtain ⟨n, hn⟩ : ∃ n, last.length = n + 1 :=
      Nat.exists_eq_succ_of_ne_zero fun h => by simp [List.length_eq_zero_iff.1 h] at hlast
    have hsize : ((toArrays (front ++ [last] ++ list :: rest))[(front ++ [last]).length - 1]?.getD
        #[]).size = n + 1 := by
      simp [toArrays, hn]
    have hparent : lastNode 0 (front ++ [last]) = n := by
      simp [lastNode_append, lastNode, hn]
    rw [openStep, if_neg (by simp), hparent]
    split
    next h => omega
    next parent h =>
      obtain rfl : parent = n := by omega
      rw [modify_toArrays]
      unfold openNode
      simp only [← Array.getLast?_toList]
      split <;> simp

theorem openSteps_toArrays {own : List Repetition} (hpath : OpenPath 0 pre)
    (hroot : pre = [] → own.head? ≠ some .optional) (hlen : own.length ≤ rest.length) :
    openSteps definition repetition pre.length own (toArrays (pre ++ rest)) =
      .ok () (toArrays (pre ++ grow (lastNode 0 pre) own rest)) := by
  induction own generalizing pre rest with
  | nil => simp [openSteps, pure, EStateM.pure]
  | cons step own ih =>
    cases rest with
    | nil => simp at hlen
    | cons list rest =>
      have hroot' : pre = [] → step ≠ .optional := fun h => by simpa using hroot h
      simp only [openSteps, bind, EStateM.bind]
      rw [openStep_toArrays definition repetition hpath hroot']
      dsimp only
      have hpath' : OpenPath 0 (pre ++ [openNode (lastNode 0 pre) step list]) :=
        openPath_append.2 ⟨hpath, getLast?_openNode .., trivial⟩
      have hrest : own.length ≤ rest.length := by simpa using hlen
      have := ih hpath' (by simp) hrest
      rw [List.length_append, List.append_assoc, List.append_assoc] at this
      rw [lastNode_append] at this
      exact this

end WireColumns.ParentLists
