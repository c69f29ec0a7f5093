import WireColumns.Nesting.ParentLists
import WireColumns.Proofs.Nesting.Levels

/-! # Levels stay in range

Levels are words of 16 bits, whose sums and differences wrap around. Here they are checked instead
(`Level.add?`, `Level.sub?`), and the nodes of an entry are appended in a single pass from the root
down (`ParentLists.visit?`), which counts the steps that are not required and takes one off the
repetition level at every repeated step that is shared. No check fails in the pass, whatever the
levels of the entry are, and it does what `ParentLists.add` does (`ParentLists.addChecked?_eq`). A
pattern is short enough for this: the count grows by no more than one at each of its steps. -/

namespace WireColumns

namespace Level

variable {a b : Int16} {n : Int}

/-- The level with a value, if 16 bits can hold it. -/
def ofInt? (n : Int) : Option Int16 :=
  if -32768 ≤ n ∧ n ≤ 32767 then some (Int16.ofInt n) else none

/-- The sum of two levels, if it does not overflow. -/
def add? (a b : Int16) : Option Int16 := ofInt? (a.toInt + b.toInt)

/-- The difference of two levels, if it does not overflow. -/
def sub? (a b : Int16) : Option Int16 := ofInt? (a.toInt - b.toInt)

theorem ofInt?_eq_some_iff : ofInt? n = some a ↔ a.toInt = n := by
  have hle := a.le_toInt
  have hlt := a.toInt_lt
  unfold ofInt?
  split
  next h =>
    rw [Option.some.injEq, ← Int16.toInt_inj, Int16.toInt_ofInt_of_le h.1 (by omega), eq_comm]
  next h =>
    simp only [reduceCtorEq, false_iff]
    omega

theorem toInt_add_one (h : a.toInt < 32767) : (a + 1).toInt = a.toInt + 1 := by
  have hone : (1 : Int16).toInt = 1 := rfl
  have hle := a.le_toInt
  rw [Int16.toInt_add, hone, Int.bmod_eq_of_le (by omega) (by omega)]

theorem add?_one (h : a.toInt < 32767) : add? a 1 = some (a + 1) :=
  ofInt?_eq_some_iff.2 (toInt_add_one h)

theorem sub?_one (h : 0 < a) : sub? a 1 = some (a - 1) := by
  have hone : (1 : Int16).toInt = 1 := rfl
  have hzero : (0 : Int16).toInt = 0 := rfl
  have hlt := a.toInt_lt
  rw [Int16.lt_iff_toInt_lt] at h
  rw [sub?, ofInt?_eq_some_iff, Int16.toInt_sub, Int.bmod_eq_of_le (by omega) (by omega)]

end Level

namespace Pattern

open Repetition

variable {p : Pattern} {steps : List Repetition} {counts : Repetition → Bool}

/-! ## The greatest levels -/

theorem ofSteps_eq_ok_iff : ofSteps steps = .ok p ↔ p.steps = steps := by
  constructor
  · intro h
    unfold ofSteps at h
    split at h
    next => cases h
    next =>
      split at h
      next =>
        split at h
        next =>
          cases h
          rfl
        next => cases h
      next => cases h
  · rintro rfl
    unfold ofSteps
    split
    next h => cases p.root_repeated.symm.trans h
    next root h =>
      obtain rfl := Option.some.inj (p.root_repeated.symm.trans h)
      rw [dif_pos rfl, dif_pos p.length_le]

/-- The number of steps with a property as a level, the root left out, if it does not overflow. -/
def levelOf? (p : Pattern) (counts : Repetition → Bool) : Option Int16 := do
  let count ← Level.ofInt? (p.steps.countP counts)
  Level.sub? count 1

theorem toInt_count (p : Pattern) (counts : Repetition → Bool) :
    (Int16.ofNat (p.steps.countP counts)).toInt = p.steps.countP counts :=
  Int16.toInt_ofNat_of_lt (p.countP_steps_lt counts)

theorem levelOf?_eq (h : counts .repeated = true) :
    p.levelOf? counts = some (p.levelOf counts) := by
  have hpos : 0 < Int16.ofNat (p.steps.countP counts) := by
    rw [Int16.lt_iff_toInt_lt, toInt_count]
    exact Int.natCast_pos.2 (p.countP_steps_pos counts h)
  rw [levelOf?, Level.ofInt?_eq_some_iff.2 (p.toInt_count counts)]
  exact Level.sub?_one hpos

theorem toInt_levelOf (h : counts .repeated = true) :
    (p.levelOf counts).toInt = (p.steps.countP counts : Int) - 1 := by
  have hpos := p.countP_steps_pos counts h
  have hlt := p.countP_steps_lt counts
  rw [levelOf_eq p h, Int16.toInt_ofNat_of_lt (by omega)]
  omega

theorem levelOf_nonneg (h : counts .repeated = true) : 0 ≤ p.levelOf counts := by
  have hpos := p.countP_steps_pos counts h
  have hzero : (0 : Int16).toInt = 0 := rfl
  rw [Int16.le_iff_toInt_le, toInt_levelOf h]
  omega

/-! ## The steps of an entry -/

variable {definition nonRequired unwind : Int16} {i : Nat} {step : Repetition}
  {rest : List Repetition}

/-- The definition level of an entry says where its nodes end. It does not say so if it is the
greatest one, or if no step below the root is optional or repeated. -/
def MayEnd (p : Pattern) (definition : Int16) : Prop :=
  0 < p.maxDefinition ∧ definition < p.maxDefinition

instance (p : Pattern) (definition : Int16) : Decidable (p.MayEnd definition) :=
  inferInstanceAs (Decidable (_ ∧ _))

/-- Where the nodes of an entry end, among the steps from step `i` on. -/
def endFrom (p : Pattern) (definition nonRequired : Int16) (i : Nat) (steps : List Repetition) :
    Nat :=
  if p.MayEnd definition then definedFrom definition nonRequired i steps else i + steps.length

/-- Where the nodes of its own start, behind the steps that it shares. -/
def startFrom (p : Pattern) (unwind : Int16) (i : Nat) (steps : List Repetition) : Nat :=
  if 0 < p.maxRepetition then sharedFrom unwind i steps else i

/-- The steps, of those from step `i` on, at which an entry opens nodes. -/
def ownFrom (p : Pattern) (definition nonRequired unwind : Int16) (i : Nat)
    (steps : List Repetition) : List Repetition :=
  (steps.take (p.endFrom definition nonRequired i steps - i)).drop
    (p.startFrom unwind i steps - i)

/-- The number of steps that are not required, with a step more. -/
def countStep (nonRequired : Int16) (step : Repetition) : Int16 :=
  if step = .required then nonRequired else nonRequired + 1

/-- The number of repeated steps that are still shared, with a step less. -/
def unwindStep (unwind : Int16) (step : Repetition) : Int16 :=
  if step = .repeated then unwind - 1 else unwind

theorem endFrom_cons
    (hdeep : ¬ (p.MayEnd definition ∧ definition + 1 < countStep nonRequired step)) :
    p.endFrom definition nonRequired i (step :: rest) =
      p.endFrom definition (countStep nonRequired step) (i + 1) rest := by
  unfold endFrom
  split
  next hends =>
    rw [definedFrom]
    exact if_neg fun h => hdeep ⟨hends, h⟩
  next =>
    rw [List.length_cons]
    omega

theorem endFrom_of_deep (hends : p.MayEnd definition)
    (hdeep : definition + 1 < countStep nonRequired step) :
    p.endFrom definition nonRequired i (step :: rest) = i := by
  rw [endFrom, if_pos hends, definedFrom]
  exact if_pos hdeep

theorem le_endFrom (p : Pattern) (definition nonRequired : Int16) (i : Nat)
    (steps : List Repetition) : i ≤ p.endFrom definition nonRequired i steps := by
  unfold endFrom
  split
  · exact le_definedFrom ..
  · omega

theorem startFrom_cons (hshared : 0 < p.maxRepetition ∧ 0 < unwind) :
    p.startFrom unwind i (step :: rest) =
      p.startFrom (unwindStep unwind step) (i + 1) rest := by
  rw [startFrom, if_pos hshared.1, sharedFrom, if_pos hshared.2, startFrom, if_pos hshared.1,
    unwindStep]

theorem startFrom_of_not_shared (hshared : ¬ (0 < p.maxRepetition ∧ 0 < unwind)) (i : Nat)
    (steps : List Repetition) : p.startFrom unwind i steps = i := by
  unfold startFrom
  split
  next hmax =>
    cases steps with
    | nil => rfl
    | cons step rest => rw [sharedFrom, if_neg fun h => hshared ⟨hmax, h⟩]
  next => rfl

theorem le_startFrom (p : Pattern) (unwind : Int16) (i : Nat) (steps : List Repetition) :
    i ≤ p.startFrom unwind i steps := by
  unfold startFrom
  split
  · exact le_sharedFrom ..
  · exact Nat.le_refl i

theorem ownFrom_of_deep (hends : p.MayEnd definition)
    (hdeep : definition + 1 < countStep nonRequired step) :
    p.ownFrom definition nonRequired unwind i (step :: rest) = [] := by
  rw [ownFrom, endFrom_of_deep hends hdeep, Nat.sub_self, List.take_zero, List.drop_nil]

theorem ownFrom_of_shared
    (hdeep : ¬ (p.MayEnd definition ∧ definition + 1 < countStep nonRequired step))
    (hshared : 0 < p.maxRepetition ∧ 0 < unwind) :
    p.ownFrom definition nonRequired unwind i (step :: rest) =
      p.ownFrom definition (countStep nonRequired step) (unwindStep unwind step) (i + 1) rest := by
  obtain ⟨e, he⟩ := Nat.exists_eq_add_of_le
    (p.le_endFrom definition (countStep nonRequired step) (i + 1) rest)
  obtain ⟨s, hs⟩ := Nat.exists_eq_add_of_le (p.le_startFrom (unwindStep unwind step) (i + 1) rest)
  rw [ownFrom, endFrom_cons hdeep, startFrom_cons hshared, ownFrom, he, hs,
    Nat.add_sub_cancel_left, Nat.add_sub_cancel_left, Nat.add_assoc, Nat.add_assoc,
    Nat.add_sub_cancel_left, Nat.add_sub_cancel_left, Nat.add_comm 1, Nat.add_comm 1,
    List.take_succ_cons, List.drop_succ_cons]

theorem ownFrom_of_not_shared
    (hdeep : ¬ (p.MayEnd definition ∧ definition + 1 < countStep nonRequired step))
    (hshared : ¬ (0 < p.maxRepetition ∧ 0 < unwind)) :
    p.ownFrom definition nonRequired unwind i (step :: rest) =
      step :: p.ownFrom definition (countStep nonRequired step) unwind (i + 1) rest := by
  obtain ⟨e, he⟩ := Nat.exists_eq_add_of_le
    (p.le_endFrom definition (countStep nonRequired step) (i + 1) rest)
  rw [ownFrom, endFrom_cons hdeep, ownFrom, startFrom_of_not_shared hshared,
    startFrom_of_not_shared hshared, he, Nat.add_sub_cancel_left, Nat.add_assoc,
    Nat.add_sub_cancel_left, Nat.add_comm 1, List.take_succ_cons, Nat.sub_self, List.drop_zero,
    Nat.sub_self, List.drop_zero]

end Pattern

namespace ParentLists

open Repetition

variable {p : Pattern} {definition repetition nonRequired unwind : Int16} {i : Nat}
  {steps : List Repetition} {lists : Array (Array Nat)}

/-- The same as `Pattern.countStep`, checked. -/
def countStep? (nonRequired : Int16) (step : Repetition) : Option Int16 :=
  if step = .required then some nonRequired else Level.add? nonRequired 1

/-- Whether a step lies too deep for the definition level. The next level is asked for only if there
are steps that do. -/
def isDeep? (p : Pattern) (definition nonRequired : Int16) : Option Bool :=
  if p.MayEnd definition then
    (Level.add? definition 1).map fun depth => decide (depth < nonRequired)
  else some false

/-- The same as `Pattern.unwindStep`, checked. -/
def unwindStep? (unwind : Int16) (step : Repetition) : Option Int16 :=
  if step = .repeated then Level.sub? unwind 1 else some unwind

/-- Appends the nodes of an entry at the steps from step `i` on, in a single pass. `nonRequired` of
the steps in front of them are not required, and `unwind` repeated steps are still shared. Gives
nothing if the level arithmetic overflows. -/
def visit? (p : Pattern) (definition repetition : Int16) :
    Int16 → Int16 → Nat → List Repetition → Array (Array Nat) →
      Option (EStateM.Result Corruption (Array (Array Nat)) Unit)
  | _, _, _, [], lists => some (.ok () lists)
  | nonRequired, unwind, i, step :: rest, lists => do
    let nonRequired ← countStep? nonRequired step
    if ← isDeep? p definition nonRequired then some (.ok () lists)
    else if 0 < p.maxRepetition ∧ 0 < unwind then
      visit? p definition repetition nonRequired (← unwindStep? unwind step) (i + 1) rest lists
    else
      match openStep definition repetition i step lists with
      | .ok _ lists => visit? p definition repetition nonRequired unwind (i + 1) rest lists
      | .error e lists => some (.error e lists)

/-- Appends the nodes of an entry as `add` does. Gives nothing if the level arithmetic overflows. -/
def addChecked? (definition repetition : Int16) (l : ParentLists) :
    Option (EStateM.Result Corruption ParentLists Unit) :=
  (visit? l.pattern definition repetition 0 repetition 0 l.pattern.steps l.lists).map fun
    | .ok _ lists => .ok () ⟨l.pattern, lists⟩
    | .error e lists => .error e ⟨l.pattern, lists⟩

/-! ## No check fails -/

theorem countStep?_eq (hlt : nonRequired.toInt < 32767) (step : Repetition) :
    countStep? nonRequired step = some (Pattern.countStep nonRequired step) := by
  unfold countStep? Pattern.countStep
  split
  · rfl
  · exact Level.add?_one hlt

theorem toInt_countStep_le (hlt : nonRequired.toInt < 32767) (step : Repetition) :
    (Pattern.countStep nonRequired step).toInt ≤ nonRequired.toInt + 1 := by
  unfold Pattern.countStep
  split
  · omega
  · exact Int.le_of_eq (Level.toInt_add_one hlt)

/-- The next definition level is asked for only below the greatest one, so there is one. -/
theorem isDeep?_eq (p : Pattern) (definition nonRequired : Int16) :
    isDeep? p definition nonRequired =
      some (decide (p.MayEnd definition ∧ definition + 1 < nonRequired)) := by
  unfold isDeep?
  split
  next hend =>
    have hlt := Int16.lt_iff_toInt_lt.1 hend.2
    have hmax := p.maxDefinition.toInt_lt
    rw [Level.add?_one (by omega), Option.map_some]
    simp only [hend, true_and]
  next hend => simp only [hend, false_and, decide_false]

theorem unwindStep?_eq (hpos : 0 < unwind) (step : Repetition) :
    unwindStep? unwind step = some (Pattern.unwindStep unwind step) := by
  unfold unwindStep? Pattern.unwindStep
  split
  · exact Level.sub?_one hpos
  · rfl

/-- One pass over the steps opens nodes at those that the entry has of its own. -/
theorem visit?_eq (hcount : nonRequired.toInt + steps.length ≤ 32767) :
    visit? p definition repetition nonRequired unwind i steps lists =
      some (openSteps definition repetition (p.startFrom unwind i steps)
        (p.ownFrom definition nonRequired unwind i steps) lists) := by
  induction steps generalizing nonRequired unwind i lists with
  | nil =>
    have hown : p.ownFrom definition nonRequired unwind i [] = [] := by
      rw [Pattern.ownFrom, List.take_nil, List.drop_nil]
    rw [visit?, hown]
    rfl
  | cons step rest ih =>
    rw [List.length_cons] at hcount
    have hlt : nonRequired.toInt < 32767 := by omega
    have hle := toInt_countStep_le hlt step
    have hrest : (Pattern.countStep nonRequired step).toInt + rest.length ≤ 32767 := by omega
    simp only [visit?, countStep?_eq hlt, isDeep?_eq, Option.bind_eq_bind, Option.bind_some,
      decide_eq_true_eq]
    by_cases hdeep : p.MayEnd definition ∧ definition + 1 < Pattern.countStep nonRequired step
    · rw [if_pos hdeep, Pattern.ownFrom_of_deep hdeep.1 hdeep.2]
      rfl
    rw [if_neg hdeep]
    by_cases hshared : 0 < p.maxRepetition ∧ 0 < unwind
    · rw [if_pos hshared, unwindStep?_eq hshared.2, Option.bind_some, ih hrest,
        Pattern.startFrom_cons hshared, Pattern.ownFrom_of_shared hdeep hshared]
    · rw [if_neg hshared, Pattern.startFrom_of_not_shared hshared,
        Pattern.ownFrom_of_not_shared hdeep hshared, openSteps]
      simp only [bind, EStateM.bind]
      cases openStep definition repetition i step lists with
      | ok _ lists =>
        dsimp only
        rw [ih hrest, Pattern.startFrom_of_not_shared hshared]
      | error e lists => rfl

theorem addChecked?_eq (definition repetition : Int16) (l : ParentLists) :
    addChecked? definition repetition l = some (add definition repetition l) := by
  obtain ⟨p, lists⟩ := l
  have hcount : (0 : Int16).toInt + p.steps.length ≤ 32767 := by
    have := Nat.lt_of_le_of_lt p.length_le Pattern.maxSteps_lt
    rw [show (0 : Int16).toInt = 0 from rfl]
    omega
  rw [addChecked?, visit?_eq hcount, Option.map_some, add]
  have hend : p.endFrom definition 0 0 p.steps = p.definedSteps definition := by
    rw [Pattern.endFrom, Nat.zero_add]
    rfl
  rw [Pattern.ownFrom, hend]
  rfl

/-- The greatest levels are the true numbers of steps, and no level overflows where an entry is
added, whatever its own levels are. -/
theorem level_arithmetic_in_range (p : Pattern) :
    (∀ steps, Pattern.ofSteps steps = .ok p ↔ p.steps = steps) ∧
    (∀ path, Pattern.ofLeafPath path = .ok p ↔
      p.steps = path.reverse.modifyHead fun _ => .repeated) ∧
    p.levelOf? (· != .required) = some p.maxDefinition ∧
    p.levelOf? (· == .repeated) = some p.maxRepetition ∧
    p.maxDefinition.toInt = (p.steps.countP (· != .required) : Int) - 1 ∧ 0 ≤ p.maxDefinition ∧
    p.maxRepetition.toInt = (p.steps.countP (· == .repeated) : Int) - 1 ∧ 0 ≤ p.maxRepetition ∧
    ∀ definition repetition lists,
      addChecked? definition repetition ⟨p, lists⟩ = some (add definition repetition ⟨p, lists⟩) :=
  ⟨fun _ => Pattern.ofSteps_eq_ok_iff, fun _ => Pattern.ofSteps_eq_ok_iff,
    Pattern.levelOf?_eq rfl, Pattern.levelOf?_eq rfl,
    Pattern.toInt_levelOf rfl, Pattern.levelOf_nonneg rfl,
    Pattern.toInt_levelOf rfl, Pattern.levelOf_nonneg rfl,
    fun definition repetition _ => addChecked?_eq definition repetition _⟩

end ParentLists

end WireColumns
