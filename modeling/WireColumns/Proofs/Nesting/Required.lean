import WireColumns.Proofs.Nesting.Shredding

/-! # Required steps

What stands at a required step after the levels of shredded records have been added. Each entry
that goes on with the uppermost list below the step adds a node there as well, although that node
exists (`ParentLists.addLevels_required`). So the parents of a required step are `0, 1, …` in turn
just if no list below it has more than one element. -/

namespace WireColumns

open Nested

namespace Pattern

variable {p : Pattern} {i r : Nat}

/-- Each step but the root has a place on the path. -/
theorem exists_place (hi : i ≠ 0) : ∃ d r, p.Place (p.steps.take i) (p.steps.drop i) d r := by
  obtain ⟨below, hroot⟩ := p.exists_steps_eq
  obtain ⟨k, rfl⟩ := Nat.exists_eq_succ_of_ne_zero hi
  have hcount : ∀ counts : Repetition → Bool, counts .repeated = true →
      (p.steps.take (k + 1)).countP counts = (below.take k).countP counts + 1 := by
    intro counts hcounts
    rw [hroot, List.take_succ_cons, List.countP_cons_of_pos hcounts]
  exact ⟨_, _, (List.take_append_drop ..).symm, hcount _ rfl, hcount _ rfl⟩

theorem Place.ne_zero {below : List Repetition} {d : Nat}
    (h : p.Place (p.steps.take i) below d r) : i ≠ 0 := by
  rintro rfl
  exact h.above_ne_nil List.take_zero

end Pattern

namespace ParentLists

variable {p : Pattern} {l l' : ParentLists} {definition repetition : Int16} {i j d r : Nat}
  {entries : List (Int16 × Int16)}

/-- Whether an entry has a node of its own at a step. -/
def opensAt (p : Pattern) (i : Nat) (e : Int16 × Int16) : Bool :=
  p.sharedSteps e.2 ≤ i ∧ i < p.definedSteps e.1

theorem opensAt_iff {e : Int16 × Int16} :
    opensAt p i e ↔ p.sharedSteps e.2 ≤ i ∧ i < p.definedSteps e.1 := decide_eq_true_iff

/-! ## How many nodes are opened -/

theorem length_of_addAll {step : Repetition} (hl : Sound l)
    (hstep : l.pattern.steps[i]? = some step) (hne : step ≠ .optional)
    (h : addAll entries l = .ok () l') :
    (parentsAt l'.lists i).length =
      (parentsAt l.lists i).length + entries.countP (opensAt l.pattern i) := by
  induction entries generalizing l with
  | nil =>
    cases h
    rfl
  | cons e entries ih =>
    obtain ⟨l₁, hadd, hall⟩ := of_addAll_cons h
    obtain ⟨hc, hext⟩ := Extends.of_add hl.size_eq hadd
    rw [ih (hl.of_extends hext hc) (hext.pattern_eq ▸ hstep) hall, hext.pattern_eq]
    by_cases hopens : opensAt l.pattern i e
    · obtain ⟨hshared, hdefined⟩ := opensAt_iff.1 hopens
      have hlist := hext.opened i step hstep hshared hdefined
      rw [openNode, if_neg fun hopen => hne hopen.1] at hlist
      rw [List.countP_cons_of_pos hopens, hlist, List.length_append, List.length_singleton,
        Nat.add_right_comm, Nat.add_assoc]
    · rw [List.countP_cons_of_neg hopens, hext.kept i fun h => hopens (opensAt_iff.2 h)]

/-! ## One node per parent -/

/-- The nodes of a step are one below each node of the step above it, in turn. -/
def OnePerParent (i : Nat) (l : ParentLists) : Prop :=
  parentsAt l.lists i = List.range (parentsAt l.lists (i - 1)).length

instance (i : Nat) (l : ParentLists) : Decidable (OnePerParent i l) :=
  inferInstanceAs (Decidable (_ = _))

/-- From a repeated step on, an entry opens a node at each step: the parent of an optional one has
only just been opened. -/
theorem Extends.list_eq_append (hext : Extends definition repetition l l') (hl : Sound l)
    (hj : l.pattern.steps[j]? = some .repeated) (hshared : l.pattern.sharedSteps repetition ≤ j)
    (hji : j ≤ i) (hi : i < l.pattern.definedSteps definition) :
    parentsAt l'.lists i = parentsAt l.lists i ++ [lastAbove l'.lists i] := by
  induction i, hji using Nat.le_induction with
  | base => rw [hext.opened j _ hj hshared hi, openNode_repeated]
  | succ i hji ih =>
    have habove := ih (by omega)
    obtain ⟨step, -, hlist⟩ := hext.exists_step (i := i + 1) ⟨by omega, hi⟩
    rw [hlist]
    -- the node above is a new one, and no node is below it yet
    refine openNode_of_lt (fun other hother => ?_) _
    have hlt := hl.lt_length (i + 1) (Nat.succ_ne_zero i) other hother
    rw [lastAbove, if_neg (Nat.succ_ne_zero i), Nat.add_sub_cancel, habove, List.length_append,
      List.length_singleton]
    exact hlt

theorem OnePerParent.of_extends (h : OnePerParent i l) (hl : Sound l)
    (hext : Extends definition repetition l l') (hj : l.pattern.steps[j]? = some .repeated)
    (hji : j < i)
    (hopens : opensAt l.pattern i (definition, repetition) →
      l.pattern.sharedSteps repetition ≤ j)
    (habove : opensAt l.pattern (i - 1) (definition, repetition) →
      opensAt l.pattern i (definition, repetition)) : OnePerParent i l' := by
  unfold OnePerParent at h ⊢
  by_cases hi : opensAt l.pattern i (definition, repetition)
  · have hshared := hopens hi
    have hdefined : i < l.pattern.definedSteps definition := (opensAt_iff.1 hi).2
    have hfront := hext.list_eq_append hl hj hshared (Nat.le_sub_one_of_lt hji) (by omega)
    have hlast : lastAbove l'.lists i = (parentsAt l.lists (i - 1)).length := by
      rw [lastAbove, if_neg (by omega), hfront, List.length_append, List.length_singleton,
        Nat.add_sub_cancel]
    rw [hext.list_eq_append hl hj hshared (Nat.le_of_lt hji) hdefined, hlast, hfront, h,
      List.length_append, List.length_singleton, List.range_succ]
  · rw [hext.kept i fun h => hi (opensAt_iff.2 h),
      hext.kept (i - 1) fun h => hi (habove (opensAt_iff.2 h)), h]

theorem OnePerParent.of_addAll (h : OnePerParent i l) (hl : Sound l)
    (hj : l.pattern.steps[j]? = some .repeated) (hji : j < i)
    (hopens : ∀ e ∈ entries, opensAt l.pattern i e → l.pattern.sharedSteps e.2 ≤ j)
    (habove : ∀ e ∈ entries, opensAt l.pattern (i - 1) e → opensAt l.pattern i e)
    (hall : addAll entries l = .ok () l') : OnePerParent i l' := by
  induction entries generalizing l with
  | nil =>
    cases hall
    exact h
  | cons e entries ih =>
    obtain ⟨l₁, hadd, hrest⟩ := of_addAll_cons hall
    obtain ⟨hc, hext⟩ := Extends.of_add hl.size_eq hadd
    rw [List.forall_mem_cons] at hopens habove
    have h₁ := h.of_extends hl hext hj hji hopens.1 habove.1
    rw [← hext.pattern_eq] at hj hopens habove
    exact ih h₁ (hl.of_extends hext hc) hj hopens.2 habove.2 hrest

/-! ## Levels of shredded records -/

section

variable (hplace : p.Place (p.steps.take i) (p.steps.drop i) d r)
  (hstep : p.steps[i]? = some .required) {e : Nat × Nat}
  (hd : e.1 < p.steps.countP Repetition.isDefining)
include hplace hstep hd

theorem lt_definedSteps_iff_of_required : i < p.definedSteps (Int16.ofNat e.1) ↔ d ≤ e.1 := by
  obtain ⟨hi, -⟩ := List.getElem?_eq_some_iff.1 hstep
  rw [Pattern.lt_definedSteps_iff hd hi, List.take_add_one, hstep, List.countP_append,
    hplace.countP_defining]
  exact Nat.succ_le_succ_iff

/-- An entry has a node at a required step if it has one at the step above it. -/
theorem opensAt_of_above (h : opensAt p (i - 1) (levels e)) : opensAt p i (levels e) := by
  obtain ⟨hi, -⟩ := List.getElem?_eq_some_iff.1 hstep
  obtain ⟨hshared, hdefined⟩ := opensAt_iff.1 h
  have hpos := Nat.pos_of_ne_zero hplace.ne_zero
  rw [levels, Pattern.lt_definedSteps_iff hd (by omega), Nat.sub_add_cancel hpos,
    hplace.countP_defining] at hdefined
  refine opensAt_iff.2 ⟨Nat.le_trans hshared (Nat.sub_le i 1), ?_⟩
  exact (lt_definedSteps_iff_of_required hplace hstep hd).2 (Nat.le_of_succ_le_succ hdefined)

theorem opensAt_levels_iff (hr : e.2 < p.steps.countP Repetition.isRepeated) :
    opensAt p i (levels e) ↔ d ≤ e.1 ∧ e.2 ≤ r + 1 := by
  obtain ⟨hi, -⟩ := List.getElem?_eq_some_iff.1 hstep
  rw [opensAt_iff, levels, lt_definedSteps_iff_of_required hplace hstep hd, ← Nat.not_lt,
    Pattern.lt_sharedSteps_iff hr hi, hplace.countP_repeated, Nat.not_lt, and_comm]

end

/-- The entries of shredded records open a required step once for each node of the step above it,
and again for each element behind the first in a list that is the next one below the step. -/
theorem countP_opensAt_shred (hplace : p.Place (p.steps.take i) (p.steps.drop i) d r)
    (hstep : p.steps[i]? = some .required) (records : Nested p.steps) :
    ((shred p.steps records).map levels).countP (opensAt p i) =
      (descend i p.steps [records]).length +
        ((descend i p.steps [records]).map fun node => listLength _ node - 1).sum := by
  obtain ⟨below, hroot⟩ := p.exists_steps_eq
  obtain ⟨k, rfl⟩ := Nat.exists_eq_succ_of_ne_zero hplace.ne_zero
  have hrun := run_shred rfl records
  rw [← countP_shred_reaching hroot hplace.countP_defining hplace.countP_repeated records,
    List.countP_map]
  refine List.countP_congr fun e he => ?_
  rw [decide_eq_true_iff]
  exact opensAt_levels_iff hplace hstep (hrun.definition_lt e he) (hrun.repetition_lt e he)

/-- Where no list below a required step has two elements, no entry opens the step again. -/
theorem onePerParent_of_shred (hplace : p.Place (p.steps.take i) (p.steps.drop i) d r)
    (hstep : p.steps[i]? = some .required) {records : Nested p.steps}
    (hshort : ∀ node ∈ descend i p.steps [records], listLength _ node ≤ 1) {nodes : ParentLists}
    (hall : addAll ((shred p.steps records).map levels) (.empty p) = .ok () nodes) :
    OnePerParent i nodes := by
  obtain ⟨below, hroot⟩ := p.exists_steps_eq
  obtain ⟨k, rfl⟩ := Nat.exists_eq_succ_of_ne_zero hplace.ne_zero
  obtain ⟨j, hji, hj, hcount⟩ := Pattern.exists_last_repeated hplace.countP_repeated
  have hrun := run_shred rfl records
  have hnone := countP_shred_continuing hroot hplace.countP_defining hplace.countP_repeated records
  rw [sum_listLength_eq_zero_iff.2 hshort, List.countP_eq_zero] at hnone
  have hstart : OnePerParent (k + 1) (empty p) := by
    rw [OnePerParent, parentsAt_empty, parentsAt_empty]
    rfl
  refine hstart.of_addAll (sound_empty p) hj hji ?_ ?_ hall
  · rw [List.forall_mem_map]
    intro e he hopens
    have hr := hrun.repetition_lt e he
    obtain ⟨hsteps, -⟩ := List.getElem?_eq_some_iff.1 hj
    obtain ⟨hd, hle⟩ := (opensAt_levels_iff hplace hstep (hrun.definition_lt e he) hr).1 hopens
    have hne := hnone e he
    rw [decide_eq_true_iff] at hne
    -- what opens the step does not go on with a list below it, so it shares nothing from `j` on
    have hshared : ¬ j < p.sharedSteps (Int16.ofNat e.2) := by
      rw [Pattern.lt_sharedSteps_iff hr hsteps, hcount]
      omega
    exact Nat.not_lt.1 hshared
  · rw [List.forall_mem_map]
    exact fun e he => opensAt_of_above hplace hstep (hrun.definition_lt e he)

/-- A required step has a node for each node of the step above it, and another for each element
behind the first in a list below: that element is taken for one of a new parent. So its parents are
`0, 1, …` in turn if no such list has more than one element, and only then. -/
theorem addLevels_required (p : Pattern) (records : Nested p.steps) (i : Nat)
    (hstep : p.steps[i]? = some .required) :
    ∃ nodes, addLevels ((shred p.steps records).map fun entry => Int16.ofNat entry.1)
        ((shred p.steps records).map fun entry => Int16.ofNat entry.2) (.empty p) =
          .ok () nodes ∧
      (parentsAt nodes.lists i).length = (descend i p.steps [records]).length +
        ((descend i p.steps [records]).map fun node => listLength _ node - 1).sum ∧
      (parentsAt nodes.lists i = List.range (descend i p.steps [records]).length ↔
        ∀ node ∈ descend i p.steps [records], listLength _ node ≤ 1) := by
  have hroot : i ≠ 0 := by
    rintro rfl
    rw [← List.head?_eq_getElem?, p.root_repeated] at hstep
    cases hstep
  obtain ⟨d, r, hplace⟩ := p.exists_place hroot
  obtain ⟨nodes, hall⟩ := exists_addAll_shred p records
  have hlength := length_of_addAll (sound_empty p) hstep (by decide) hall
  have hpattern : (empty p).pattern = p := rfl
  rw [hpattern, parentsAt_empty, List.length_nil, Nat.zero_add,
    countP_opensAt_shred hplace hstep records] at hlength
  refine ⟨nodes, addLevels_of_addAll hall, hlength, fun hlist => ?_, fun hshort => ?_⟩
  · rw [hlist, List.length_range] at hlength
    exact sum_listLength_eq_zero_iff.1 (by omega)
  · have hone := onePerParent_of_shred hplace hstep hshort hall
    rw [OnePerParent] at hone
    rw [sum_listLength_eq_zero_iff.2 hshort, Nat.add_zero, hone, List.length_range] at hlength
    rw [hone, hlength]

/-- One record with a list of two elements below a required step, which is there once. -/
theorem addLevels_required_list :
    ∃ nodes, addLevels [1, 1] [0, 1]
        (.empty ⟨[.repeated, .required, .repeated], rfl, by decide⟩) = .ok () nodes ∧
      (parentsAt nodes.lists 1).length = 2 ∧ parentsAt nodes.lists 1 ≠ List.range 1 := by
  obtain ⟨nodes, hadd, hlength, hiff⟩ :=
    addLevels_required ⟨[.repeated, .required, .repeated], rfl, by decide⟩
      ⟨[⟨[⟨[(), ()], trivial⟩], rfl⟩], trivial⟩ 1 rfl
  refine ⟨nodes, hadd, hlength, fun hlist => ?_⟩
  have := hiff.1 hlist _ (List.mem_singleton_self _)
  exact absurd this (by decide)

/-- So a required step need not have one node per parent: in that record, it has two below the one
node of the root step. -/
theorem not_onePerParent_of_shred :
    ¬ ∀ (p : Pattern) (records : Nested p.steps) (i : Nat), p.steps[i]? = some .required →
      ∃ nodes, addLevels ((shred p.steps records).map fun entry => Int16.ofNat entry.1)
          ((shred p.steps records).map fun entry => Int16.ofNat entry.2) (.empty p) =
            .ok () nodes ∧
        OnePerParent i nodes := by
  intro h
  obtain ⟨nodes, hadd, hone⟩ := h ⟨[.repeated, .required, .repeated], rfl, by decide⟩
    ⟨[⟨[⟨[(), ()], trivial⟩], rfl⟩], trivial⟩ 1 rfl
  have hlists : addLevels [1, 1] [0, 1]
      (.empty ⟨[.repeated, .required, .repeated], rfl, by decide⟩) =
        .ok () ⟨⟨[.repeated, .required, .repeated], rfl, by decide⟩,
          #[#[0], #[0, 0], #[0, 1]]⟩ := rfl
  cases hlists.symm.trans hadd
  exact absurd hone (by decide)

end ParentLists

end WireColumns
