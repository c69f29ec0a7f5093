import WireColumns.Proofs.Nesting.Growth
import WireColumns.Proofs.Nesting.Levels

/-! # What an entry adds

`ParentLists.add` step by step, for entries with any levels. An entry opens a node at each of the
steps that it has a node at and does not share with the entry before it, and leaves the other steps
alone (`Extends`). It is refused only where the step it goes on at has no node (`Continues`). In the
lists that come about, every parent exists (`Sound`). -/

namespace WireColumns

namespace ParentLists

/-- The parents of the nodes of a step. -/
def parentsAt (lists : Array (Array Nat)) (i : Nat) : List Nat := (lists[i]?.getD #[]).toList

/-- The last node of the step above, under which a step's nodes are opened. -/
def lastAbove (lists : Array (Array Nat)) (i : Nat) : Nat :=
  if i = 0 then 0 else (parentsAt lists (i - 1)).length - 1

/-- The lists after an entry: a node has been opened at each step that the entry has of its own. -/
structure Extends (definition repetition : Int16) (l l' : ParentLists) : Prop where
  pattern_eq : l'.pattern = l.pattern
  size_eq : l'.lists.size = l.lists.size
  opened : ∀ i step, l.pattern.steps[i]? = some step → l.pattern.sharedSteps repetition ≤ i →
    i < l.pattern.definedSteps definition →
    parentsAt l'.lists i = openNode (lastAbove l'.lists i) step (parentsAt l.lists i)
  kept : ∀ i, ¬ (l.pattern.sharedSteps repetition ≤ i ∧ i < l.pattern.definedSteps definition) →
    parentsAt l'.lists i = parentsAt l.lists i

/-- An entry that brings any nodes goes on at a step that has one. -/
def Continues (definition repetition : Int16) (l : ParentLists) : Prop :=
  l.pattern.sharedSteps repetition < l.pattern.definedSteps definition →
    l.pattern.sharedSteps repetition ≠ 0 →
    parentsAt l.lists (l.pattern.sharedSteps repetition - 1) ≠ []

/-! ## Opening nodes -/

section

variable {lists : Array (Array Nat)} {i j : Nat} {step : Repetition}

theorem parentsAt_modify (f : Array Nat → Array Nat) (hi : i < lists.size) (j : Nat) :
    parentsAt (lists.modify i f) j =
      if j = i then (f (lists[i]?.getD #[])).toList else parentsAt lists j := by
  rw [parentsAt, Array.getElem?_modify]
  by_cases hj : i = j
  · subst hj
    rw [if_pos rfl, if_pos rfl, Array.getElem?_eq_getElem hi]
    rfl
  · rw [if_neg hj, if_neg (Ne.symm hj)]
    rfl

theorem lastAbove_congr {lists' : Array (Array Nat)}
    (h : i ≠ 0 → parentsAt lists' (i - 1) = parentsAt lists (i - 1)) :
    lastAbove lists' i = lastAbove lists i := by
  unfold lastAbove
  split
  · rfl
  next hi => rw [h hi]

theorem openNode_ne_nil (parent : Nat) (step : Repetition) (list : List Nat) :
    openNode parent step list ≠ [] := by
  intro h
  have hlast := getLast?_openNode parent step list
  rw [h] at hlast
  cases hlast

variable (definition repetition : Int16)

theorem openStep_eq_ok (hi : i < lists.size) (hopen : i ≠ 0 → parentsAt lists (i - 1) ≠ [])
    (hroot : i = 0 → step ≠ .optional) :
    ∃ lists', openStep definition repetition i step lists = .ok () lists' ∧
      lists'.size = lists.size ∧
      ∀ j, parentsAt lists' j =
        if j = i then openNode (lastAbove lists i) step (parentsAt lists i)
        else parentsAt lists j := by
  unfold openStep
  by_cases hzero : i = 0
  · subst hzero
    rw [if_pos rfl]
    refine ⟨_, rfl, Array.size_modify, fun j => ?_⟩
    have hopened : openNode 0 step (parentsAt lists 0) = parentsAt lists 0 ++ [0] :=
      if_neg fun h => hroot rfl h.1
    rw [parentsAt_modify _ hi, lastAbove, if_pos rfl, hopened, Array.toList_push]
    rfl
  · rw [if_neg hzero]
    have hlength : (lists[i - 1]?.getD #[]).size = (parentsAt lists (i - 1)).length := by
      rw [parentsAt, Array.length_toList]
    have hpos := List.length_pos_iff.2 (hopen hzero)
    split
    next h => omega
    next parent h =>
      obtain rfl : parent = lastAbove lists i := by
        rw [lastAbove, if_neg hzero]
        omega
      refine ⟨_, rfl, Array.size_modify, fun j => ?_⟩
      rw [parentsAt_modify _ hi]
      congr 1
      unfold openNode
      simp only [← Array.getLast?_toList]
      split <;> simp_all [parentsAt]

theorem openStep_eq_error (hzero : i ≠ 0) (hnone : parentsAt lists (i - 1) = [])
    (step : Repetition) :
    openStep definition repetition i step lists =
      .error (.orphanLevels definition repetition (i - 1)) lists := by
  have hlength : (lists[i - 1]?.getD #[]).size = 0 := by
    rw [← Array.length_toList]
    exact List.length_eq_zero_iff.2 hnone
  rw [openStep, if_neg hzero]
  split
  next => rfl
  next h => omega

/-- Opening nodes at some steps, from the upmost down. -/
theorem openSteps_eq_ok {own : List Repetition} (hsize : i + own.length ≤ lists.size)
    (hopen : own ≠ [] → i ≠ 0 → parentsAt lists (i - 1) ≠ [])
    (hroot : i = 0 → own.head? ≠ some .optional) :
    ∃ lists', openSteps definition repetition i own lists = .ok () lists' ∧
      lists'.size = lists.size ∧
      (∀ k step, own[k]? = some step → parentsAt lists' (i + k) =
        openNode (lastAbove lists' (i + k)) step (parentsAt lists (i + k))) ∧
      ∀ j, ¬ (i ≤ j ∧ j < i + own.length) → parentsAt lists' j = parentsAt lists j := by
  induction own generalizing i lists with
  | nil => exact ⟨lists, rfl, rfl, nofun, fun _ _ => rfl⟩
  | cons step own ih =>
    rw [List.length_cons] at hsize
    obtain ⟨lists₁, hstep, hsize₁, hlist₁⟩ :=
      openStep_eq_ok definition repetition (i := i) (by omega) (hopen (List.cons_ne_nil _ _))
        fun h => by simpa using hroot h
    have hopen₁ : parentsAt lists₁ (i + 1 - 1) ≠ [] := by
      rw [Nat.add_sub_cancel, hlist₁, if_pos rfl]
      exact openNode_ne_nil _ _ _
    obtain ⟨lists', hsteps, hsize', hopened, hkept⟩ :=
      ih (by omega) (fun _ _ => hopen₁) (fun h => absurd h (Nat.succ_ne_zero i))
    refine ⟨lists', ?_, hsize'.trans hsize₁, ?_, ?_⟩
    · simp only [openSteps, bind, EStateM.bind, hstep]
      exact hsteps
    · intro k s hk
      cases k with
      | zero =>
        obtain rfl : step = s := Option.some.inj hk
        have hfront : i ≠ 0 → parentsAt lists' (i - 1) = parentsAt lists (i - 1) := by
          intro hi
          rw [hkept _ (by omega), hlist₁, if_neg (by omega)]
        rw [Nat.add_zero, hkept _ (by omega), hlist₁, if_pos rfl, lastAbove_congr hfront]
      | succ k =>
        have := hopened k s hk
        rw [Nat.add_assoc, Nat.add_comm 1] at this
        rw [this, hlist₁, if_neg (by omega)]
    · intro j hj
      rw [List.length_cons] at hj
      rw [hkept j (by omega), hlist₁, if_neg (by omega)]

end

/-! ## Adding an entry -/

variable {l l' : ParentLists} {definition repetition : Int16}

theorem add_eq_ok (hsize : l.lists.size = l.pattern.steps.length)
    (h : l.Continues definition repetition) :
    ∃ l', add definition repetition l = .ok () l' ∧ Extends definition repetition l l' := by
  obtain ⟨p, lists⟩ := l
  change lists.size = p.steps.length at hsize
  have hdefined := p.definedSteps_le definition
  have hshared := p.sharedSteps_le repetition
  have hlength : ((p.steps.take (p.definedSteps definition)).drop
      (p.sharedSteps repetition)).length =
      p.definedSteps definition - p.sharedSteps repetition := by
    rw [List.length_drop, List.length_take, Nat.min_eq_left hdefined]
  have hopen : (p.steps.take (p.definedSteps definition)).drop (p.sharedSteps repetition) ≠ [] →
      p.sharedSteps repetition ≠ 0 → parentsAt lists (p.sharedSteps repetition - 1) ≠ [] := by
    intro hown
    apply h
    rw [← List.length_pos_iff, hlength] at hown
    exact Nat.lt_of_sub_pos hown
  have hroot : p.sharedSteps repetition = 0 →
      ((p.steps.take (p.definedSteps definition)).drop (p.sharedSteps repetition)).head? ≠
        some .optional := by
    intro hzero
    rw [hzero, List.drop_zero, List.head?_take, p.root_repeated]
    split <;> exact nofun
  obtain ⟨lists', hadd, hsize', hopened, hkept⟩ :=
    openSteps_eq_ok definition repetition (by omega) hopen hroot
  refine ⟨⟨p, lists'⟩, ?_, rfl, hsize', ?_, ?_⟩
  · simp only [add, hadd]
  · intro i step hstep hi hlt
    obtain ⟨k, rfl⟩ := Nat.exists_eq_add_of_le hi
    apply hopened
    rw [List.getElem?_drop, List.getElem?_take_of_lt hlt]
    exact hstep
  · intro i hi
    apply hkept
    rw [hlength]
    change ¬ (p.sharedSteps repetition ≤ i ∧ i < p.definedSteps definition) at hi
    omega

theorem add_eq_error (h : ¬ l.Continues definition repetition) :
    add definition repetition l =
      .error (.orphanLevels definition repetition (l.pattern.sharedSteps repetition - 1)) l := by
  obtain ⟨p, lists⟩ := l
  unfold Continues at h
  push Not at h
  obtain ⟨hlt, hzero, hnone⟩ := h
  obtain ⟨step, own, hown⟩ : ∃ step own, (p.steps.take (p.definedSteps definition)).drop
      (p.sharedSteps repetition) = step :: own := by
    rw [← List.ne_nil_iff_exists_cons, ← List.length_pos_iff, List.length_drop, List.length_take,
      Nat.min_eq_left (p.definedSteps_le definition)]
    exact Nat.sub_pos_of_lt hlt
  have hstep := openStep_eq_error definition repetition hzero hnone step
  simp only [add, hown, openSteps, bind, EStateM.bind, hstep]

theorem Extends.of_add (hsize : l.lists.size = l.pattern.steps.length)
    (h : add definition repetition l = .ok () l') :
    l.Continues definition repetition ∧ Extends definition repetition l l' := by
  by_cases hc : l.Continues definition repetition
  · obtain ⟨l'', hadd, hext⟩ := add_eq_ok hsize hc
    rw [hadd] at h
    cases h
    exact ⟨hc, hext⟩
  · rw [add_eq_error hc] at h
    cases h

/-! ## Every parent exists -/

/-- There is a list for each step, and all parents are nodes of the step above. -/
structure Sound (l : ParentLists) : Prop where
  size_eq : l.lists.size = l.pattern.steps.length
  lt_length : ∀ i ≠ 0, ∀ parent ∈ parentsAt l.lists i, parent < (parentsAt l.lists (i - 1)).length

theorem parentsAt_empty (p : Pattern) (i : Nat) : parentsAt (empty p).lists i = [] := by
  unfold parentsAt empty
  rw [Array.getElem?_replicate]
  split <;> rfl

theorem sound_empty (p : Pattern) : Sound (empty p) := by
  refine ⟨Array.size_replicate, fun i _ parent hparent => ?_⟩
  rw [parentsAt_empty] at hparent
  cases hparent

theorem mem_openNode {parent other : Nat} {step : Repetition} {list : List Nat}
    (h : other ∈ openNode parent step list) : other ∈ list ∨ other = parent := by
  unfold openNode at h
  split at h
  · exact .inl h
  · simpa using h

theorem prefix_openNode (parent : Nat) (step : Repetition) (list : List Nat) :
    list <+: openNode parent step list := by
  unfold openNode
  split
  · exact List.prefix_refl list
  · exact List.prefix_append ..

section

variable {i : Nat} (h : Extends definition repetition l l')
include h

/-- A step where an entry opens a node is one of the pattern's. -/
theorem Extends.exists_step (hi : l.pattern.sharedSteps repetition ≤ i ∧
      i < l.pattern.definedSteps definition) :
    ∃ step, l.pattern.steps[i]? = some step ∧
      parentsAt l'.lists i = openNode (lastAbove l'.lists i) step (parentsAt l.lists i) := by
  have hsteps := Nat.lt_of_lt_of_le hi.2 (l.pattern.definedSteps_le definition)
  have hstep := List.getElem?_eq_getElem hsteps
  exact ⟨_, hstep, h.opened i _ hstep hi.1 hi.2⟩

theorem Extends.opened_ne_nil (hi : l.pattern.sharedSteps repetition ≤ i)
    (hlt : i < l.pattern.definedSteps definition) : parentsAt l'.lists i ≠ [] := by
  obtain ⟨step, -, hlist⟩ := h.exists_step ⟨hi, hlt⟩
  rw [hlist]
  exact openNode_ne_nil _ _ _

/-- The nodes that are there stay where they are. -/
theorem Extends.parentsAt_prefix (i : Nat) : parentsAt l.lists i <+: parentsAt l'.lists i := by
  by_cases hi : l.pattern.sharedSteps repetition ≤ i ∧ i < l.pattern.definedSteps definition
  · obtain ⟨step, -, hlist⟩ := h.exists_step hi
    rw [hlist]
    exact prefix_openNode ..
  · rw [h.kept i hi]

theorem Extends.length_le (i : Nat) :
    (parentsAt l.lists i).length ≤ (parentsAt l'.lists i).length :=
  (h.parentsAt_prefix i).length_le

variable (hc : l.Continues definition repetition)
include hc

/-- A node is opened below one that is there. -/
theorem Extends.above_ne_nil (hzero : i ≠ 0) (hi : l.pattern.sharedSteps repetition ≤ i)
    (hlt : i < l.pattern.definedSteps definition) : parentsAt l'.lists (i - 1) ≠ [] := by
  rcases Nat.eq_or_lt_of_le hi with heq | hi'
  · have habove := hc (by omega) (by omega)
    rw [heq] at habove
    rwa [h.kept _ (by omega)]
  · exact h.opened_ne_nil (by omega) (by omega)

theorem Extends.lastAbove_lt (hzero : i ≠ 0) (hi : l.pattern.sharedSteps repetition ≤ i)
    (hlt : i < l.pattern.definedSteps definition) :
    lastAbove l'.lists i < (parentsAt l'.lists (i - 1)).length := by
  have hpos := List.length_pos_iff.2 (h.above_ne_nil hc hzero hi hlt)
  rw [lastAbove, if_neg hzero]
  omega

theorem Sound.of_extends (hl : Sound l) : Sound l' := by
  refine ⟨by rw [h.size_eq, hl.size_eq, h.pattern_eq], fun i hzero parent hparent => ?_⟩
  have hold : parent ∈ parentsAt l.lists i →
      parent < (parentsAt l'.lists (i - 1)).length := fun hmem =>
    Nat.lt_of_lt_of_le (hl.lt_length i hzero parent hmem) (h.length_le _)
  by_cases hi : l.pattern.sharedSteps repetition ≤ i ∧ i < l.pattern.definedSteps definition
  · obtain ⟨step, -, hlist⟩ := h.exists_step hi
    rw [hlist] at hparent
    rcases mem_openNode hparent with hmem | rfl
    · exact hold hmem
    · exact h.lastAbove_lt hc hzero hi.1 hi.2
  · rw [h.kept i hi] at hparent
    exact hold hparent

end

end ParentLists

end WireColumns
