import WireColumns.Proofs.Nesting.Adding

/-! # Nodes on top of nodes

Entries that can be added where there are no nodes yet can be added on top of any nodes, and bring
the same nodes there: the parents move up by the number of nodes that the step above them had
before (`Stacks.addAll`). What earlier records have left is never looked at, because an optional
step is taken for open only below the last node of the step above. -/

namespace WireColumns.ParentLists

variable {prev l l' m : ParentLists} {definition repetition : Int16}

/-- How far the parents at a step move up on top of the given lists. -/
def offset (lists : Array (Array Nat)) (i : Nat) : Nat :=
  if i = 0 then 0 else (parentsAt lists (i - 1)).length

/-- `m` has the nodes of `l` on top of those of `prev`. -/
structure Stacks (prev l m : ParentLists) : Prop where
  pattern_eq : m.pattern = l.pattern
  size_eq : m.lists.size = l.lists.size
  list_eq : ∀ i, parentsAt m.lists i =
    parentsAt prev.lists i ++ (parentsAt l.lists i).map (offset prev.lists i + ·)

theorem openNode_append_map {below list : List Nat} {passed : Nat}
    (h : ∀ other ∈ below, other < passed) (parent : Nat) (step : Repetition) :
    openNode (passed + parent) step (below ++ list.map (passed + ·)) =
      below ++ (openNode parent step list).map (passed + ·) := by
  have hlast : (below ++ list.map (passed + ·)).getLast? = some (passed + parent) ↔
      list.getLast? = some parent := by
    rcases List.eq_nil_or_concat list with rfl | ⟨front, last, rfl⟩
    · rw [List.map_nil, List.append_nil]
      refine ⟨fun hlast => ?_, nofun⟩
      have := h _ (List.mem_of_getLast? hlast)
      omega
    · rw [List.concat_eq_append, List.map_append, ← List.append_assoc]
      simp
  unfold openNode
  simp only [hlast]
  split
  · rfl
  · rw [List.map_append, List.append_assoc]
    rfl

theorem stacks_empty (hsize : prev.lists.size = prev.pattern.steps.length) :
    Stacks prev (empty prev.pattern) prev := by
  refine ⟨rfl, by rw [hsize, empty, Array.size_replicate], fun i => ?_⟩
  rw [parentsAt_empty, List.map_nil, List.append_nil]

/-- The last node of a step moves up like all others. -/
theorem lastAbove_of_append {below lists stacked : Array (Array Nat)} {i : Nat}
    (hlist : i ≠ 0 → (parentsAt stacked (i - 1)).length =
      (parentsAt below (i - 1)).length + (parentsAt lists (i - 1)).length)
    (habove : i ≠ 0 → parentsAt lists (i - 1) ≠ []) :
    lastAbove stacked i = offset below i + lastAbove lists i := by
  unfold lastAbove offset
  split
  · rfl
  next hi =>
    have hpos := List.length_pos_iff.2 (habove hi)
    rw [hlist hi]
    omega

theorem Stacks.add (h : Stacks prev l m) (hprev : Sound prev) (hl : Sound l)
    (hadd : add definition repetition l = .ok () l') :
    ∃ m', ParentLists.add definition repetition m = .ok () m' ∧ Stacks prev l' m' := by
  obtain ⟨hc, hext⟩ := Extends.of_add hl.size_eq hadd
  have hsize : m.lists.size = m.pattern.steps.length := by
    rw [h.size_eq, h.pattern_eq, hl.size_eq]
  have hcontinues : m.Continues definition repetition := by
    unfold Continues
    rw [h.pattern_eq, h.list_eq]
    intro hlt hzero hnil
    exact hc hlt hzero (List.map_eq_nil_iff.1 (List.append_eq_nil_iff.1 hnil).2)
  obtain ⟨m', haddm, hextm⟩ := add_eq_ok hsize hcontinues
  have hopenedm := hextm.opened
  have hkeptm := hextm.kept
  rw [h.pattern_eq] at hopenedm hkeptm
  refine ⟨m', haddm, by rw [hextm.pattern_eq, h.pattern_eq, hext.pattern_eq],
    by rw [hextm.size_eq, h.size_eq, hext.size_eq], fun i => ?_⟩
  -- step by step, because the parent at a step is the last node of the list above it
  induction i with
  | zero =>
    by_cases hi : l.pattern.sharedSteps repetition ≤ 0 ∧ 0 < l.pattern.definedSteps definition
    · have hroot : l.pattern.steps[0]? = some .repeated := by
        rw [← List.head?_eq_getElem?]
        exact l.pattern.root_repeated
      rw [hopenedm 0 _ hroot hi.1 hi.2, hext.opened 0 _ hroot hi.1 hi.2, openNode_repeated,
        openNode_repeated, h.list_eq, List.map_append, List.append_assoc]
      rfl
    · rw [hkeptm 0 hi, hext.kept 0 hi, h.list_eq]
  | succ i ih =>
    by_cases hi : l.pattern.sharedSteps repetition ≤ i + 1 ∧
        i + 1 < l.pattern.definedSteps definition
    · have hsteps := Nat.lt_of_lt_of_le hi.2 (l.pattern.definedSteps_le definition)
      have hstep := List.getElem?_eq_getElem hsteps
      have hparent : lastAbove m'.lists (i + 1) =
          offset prev.lists (i + 1) + lastAbove l'.lists (i + 1) := by
        apply lastAbove_of_append
        · intro _
          rw [Nat.add_sub_cancel, ih, List.length_append, List.length_map]
        · exact fun hzero => hext.above_ne_nil hc hzero hi.1 hi.2
      have hbelow : ∀ other ∈ parentsAt prev.lists (i + 1),
          other < offset prev.lists (i + 1) :=
        hprev.lt_length (i + 1) (Nat.succ_ne_zero i)
      rw [hopenedm _ _ hstep hi.1 hi.2, hext.opened _ _ hstep hi.1 hi.2, h.list_eq, hparent,
        openNode_append_map hbelow]
    · rw [hkeptm _ hi, hext.kept _ hi, h.list_eq]

/-! ## Entries in order -/

theorem addAll_cons (definition repetition : Int16) (entries : List (Int16 × Int16))
    (l : ParentLists) :
    addAll ((definition, repetition) :: entries) l =
      match ParentLists.add definition repetition l with
      | .ok _ l' => addAll entries l'
      | .error e l' => .error e l' := by
  rw [addAll]
  simp only [bind, EStateM.bind]
  cases ParentLists.add definition repetition l <;> rfl

theorem of_addAll_cons {e : Int16 × Int16} {entries : List (Int16 × Int16)}
    (h : addAll (e :: entries) l = .ok () l') :
    ∃ l₁, ParentLists.add e.1 e.2 l = .ok () l₁ ∧ addAll entries l₁ = .ok () l' := by
  rw [addAll_cons] at h
  cases hadd : ParentLists.add e.1 e.2 l with
  | error _ _ =>
    rw [hadd] at h
    cases h
  | ok _ l₁ =>
    rw [hadd] at h
    exact ⟨l₁, rfl, h⟩

theorem of_addAll_append {xs ys : List (Int16 × Int16)} (h : addAll (xs ++ ys) l = .ok () l') :
    ∃ l₁, addAll xs l = .ok () l₁ ∧ addAll ys l₁ = .ok () l' := by
  induction xs generalizing l with
  | nil => exact ⟨l, rfl, h⟩
  | cons x xs ih =>
    obtain ⟨l₁, hadd, hall⟩ := of_addAll_cons h
    obtain ⟨l₂, hxs, hys⟩ := ih hall
    refine ⟨l₂, ?_, hys⟩
    rw [addAll_cons, hadd]
    exact hxs

theorem Sound.of_addAll {entries : List (Int16 × Int16)} (hl : Sound l)
    (h : addAll entries l = .ok () l') : Sound l' ∧ l'.pattern = l.pattern := by
  induction entries generalizing l with
  | nil =>
    cases h
    exact ⟨hl, rfl⟩
  | cons e entries ih =>
    obtain ⟨l₁, hadd, hall⟩ := of_addAll_cons h
    obtain ⟨hc, hext⟩ := Extends.of_add hl.size_eq hadd
    obtain ⟨hsound, hpattern⟩ := ih (hl.of_extends hext hc) hall
    exact ⟨hsound, hpattern.trans hext.pattern_eq⟩

theorem Stacks.addAll {entries : List (Int16 × Int16)} (h : Stacks prev l m) (hprev : Sound prev)
    (hl : Sound l) (hadd : addAll entries l = .ok () l') :
    ∃ m', ParentLists.addAll entries m = .ok () m' ∧ Stacks prev l' m' := by
  induction entries generalizing l m with
  | nil =>
    cases hadd
    exact ⟨m, rfl, h⟩
  | cons e entries ih =>
    obtain ⟨l₁, hstep, hall⟩ := of_addAll_cons hadd
    obtain ⟨hc, hext⟩ := Extends.of_add hl.size_eq hstep
    obtain ⟨m₁, hm₁, hstacks⟩ := h.add hprev hl hstep
    obtain ⟨m', hm', hstacks'⟩ := ih hstacks (hl.of_extends hext hc) hall
    exact ⟨m', by rw [addAll_cons, hm₁]; exact hm', hstacks'⟩

end WireColumns.ParentLists
