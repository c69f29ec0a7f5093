import WireColumns.Proofs.Nesting.Required

/-! # The record that a node belongs to

Following the parents upwards from a node leads to a node of the root step, its record
(`ParentLists.rootOf?`). Nodes stay where they are, so a node's record does not change
(`ParentLists.Extends.rootOf?_eq`), and the nodes that an entry opens are all in the record of the
node that it goes on below (`ParentLists.Extends.lastRoot?_above`). Whether that is the last record
depends on how many steps, from the root on, the last record has nodes at
(`ParentLists.recordSteps`): the last node of any other step is left from an earlier record
(`ParentLists.LastRecord`). -/

namespace WireColumns

namespace ParentLists

variable {l l' : ParentLists} {lists : Array (Array Nat)} {definition repetition : Int16}
  {i j n own root : Nat} {e : Int16 × Int16} {entries : List (Int16 × Int16)}

/-- The node of the root step that the parents lead up to from a node. -/
def rootOf? (lists : Array (Array Nat)) : (i node : Nat) → Option Nat
  | 0, node => if node < (parentsAt lists 0).length then some node else none
  | i + 1, node => (parentsAt lists (i + 1))[node]?.bind (rootOf? lists i)

/-- The record that the last node of a step is in. -/
def lastRoot? (lists : Array (Array Nat)) (i : Nat) : Option Nat :=
  rootOf? lists i ((parentsAt lists i).length - 1)

def recordCount (lists : Array (Array Nat)) : Nat := (parentsAt lists 0).length

/-- At how many steps, from the root on, the last record has nodes behind an entry, where `own` is
their number in front of it. An entry that goes on below a node of another record opens none in the
last one. -/
def recordStepsAfter (p : Pattern) (own : Nat) (e : Int16 × Int16) : Nat :=
  if p.sharedSteps e.2 < p.definedSteps e.1 then
    if p.sharedSteps e.2 = 0 then p.definedSteps e.1
    else if p.sharedSteps e.2 ≤ own then max own (p.definedSteps e.1)
    else own
  else own

/-- At how many steps, from the root on, the last record has nodes behind some entries. -/
def recordSteps (p : Pattern) (entries : List (Int16 × Int16)) : Nat :=
  entries.foldl (recordStepsAfter p) 0

/-- The last record has nodes at the first steps, and the last nodes of all others are left from
earlier records. -/
structure LastRecord (own : Nat) (lists : Array (Array Nat)) : Prop where
  inside : ∀ i < own, lastRoot? lists i = some (recordCount lists - 1)
  outside : ∀ i, own ≤ i → ∀ root, lastRoot? lists i = some root → root + 1 < recordCount lists

/-! ## Roots -/

theorem rootOf?_eq_none (h : (parentsAt lists i).length ≤ n) : rootOf? lists i n = none := by
  cases i with
  | zero => exact if_neg (Nat.not_lt.2 h)
  | succ i => rw [rootOf?, List.getElem?_eq_none h, Option.bind_none]

theorem lt_recordCount_of_rootOf? (h : rootOf? lists i n = some root) :
    root < recordCount lists := by
  induction i generalizing n with
  | zero =>
    rw [rootOf?] at h
    split at h
    next hn =>
      cases h
      exact hn
    next => cases h
  | succ i ih =>
    obtain ⟨parent, -, hparent⟩ := Option.bind_eq_some_iff.1 h
    exact ih hparent

/-- Every node is in a record. -/
theorem Sound.exists_rootOf?_eq (hl : Sound l) (h : n < (parentsAt l.lists i).length) :
    ∃ root, rootOf? l.lists i n = some root := by
  induction i generalizing n with
  | zero => exact ⟨n, if_pos h⟩
  | succ i ih =>
    have hparent := hl.lt_length (i + 1) (Nat.succ_ne_zero i) _ (List.getElem_mem h)
    obtain ⟨root, hroot⟩ := ih hparent
    refine ⟨root, ?_⟩
    rw [rootOf?, List.getElem?_eq_getElem h]
    exact hroot

theorem lastRoot?_of_getLast?
    (h : (parentsAt lists (i + 1)).getLast? = some (lastAbove lists (i + 1))) :
    lastRoot? lists (i + 1) = lastRoot? lists i := by
  rw [List.getLast?_eq_getElem?] at h
  rw [lastRoot?, rootOf?, h, Option.bind_some, lastAbove, if_neg (Nat.succ_ne_zero i)]
  rfl

/-! ## What an entry does to them -/

section

variable (hext : Extends definition repetition l l')
include hext

/-- A node stays in its record. -/
theorem Extends.rootOf?_eq (h : rootOf? l.lists i n = some root) :
    rootOf? l'.lists i n = some root := by
  induction i generalizing n with
  | zero =>
    rw [rootOf?] at h ⊢
    split at h
    next hn => rw [if_pos (Nat.lt_of_lt_of_le hn (hext.length_le 0)), h]
    next => cases h
  | succ i ih =>
    obtain ⟨parent, hparent, hroot⟩ := Option.bind_eq_some_iff.1 h
    obtain ⟨more, hmore⟩ := hext.parentsAt_prefix (i + 1)
    obtain ⟨hn, -⟩ := List.getElem?_eq_some_iff.1 hparent
    rw [rootOf?, ← hmore, List.getElem?_append_left hn, hparent]
    exact ih hroot

theorem Extends.lastRoot?_kept (hl : Sound l)
    (hi : ¬ (l.pattern.sharedSteps repetition ≤ i ∧ i < l.pattern.definedSteps definition)) :
    lastRoot? l'.lists i = lastRoot? l.lists i := by
  have hkept := hext.kept i hi
  rw [lastRoot?, lastRoot?, hkept]
  rcases Nat.eq_zero_or_pos (parentsAt l.lists i).length with hzero | hpos
  · rw [rootOf?_eq_none (by rw [hkept]; omega), rootOf?_eq_none (by omega)]
  · obtain ⟨root, hroot⟩ := hl.exists_rootOf?_eq (Nat.sub_lt hpos Nat.one_pos)
    rw [hroot, hext.rootOf?_eq hroot]

/-- The last nodes of the steps that the entry opens are in one record, which is that of the last
node of the step above them. -/
theorem Extends.lastRoot?_eq (hj : l.pattern.sharedSteps repetition ≤ j + 1) (hji : j ≤ i)
    (hi : i < l.pattern.definedSteps definition) :
    lastRoot? l'.lists i = lastRoot? l'.lists j := by
  induction i, hji using Nat.le_induction with
  | base => rfl
  | succ i hji ih =>
    obtain ⟨step, -, hlist⟩ := hext.exists_step ⟨hj.trans (Nat.succ_le_succ hji), hi⟩
    rw [← ih (by omega)]
    apply lastRoot?_of_getLast?
    rw [hlist]
    exact getLast?_openNode ..

/-- An entry that shares no step begins a record. -/
theorem Extends.lastRoot?_new (hshared : l.pattern.sharedSteps repetition = 0)
    (hi : i < l.pattern.definedSteps definition) :
    recordCount l'.lists = recordCount l.lists + 1 ∧
      lastRoot? l'.lists i = some (recordCount l.lists) := by
  have hroot : l.pattern.steps[0]? = some .repeated := by
    rw [← List.head?_eq_getElem?]
    exact l.pattern.root_repeated
  have hcount : recordCount l'.lists = recordCount l.lists + 1 := by
    rw [recordCount, hext.opened 0 _ hroot (by omega) (by omega), openNode_repeated,
      List.length_append]
    rfl
  have hpos : 0 < recordCount l'.lists := by omega
  have hlast : lastRoot? l'.lists 0 = some (recordCount l'.lists - 1) :=
    if_pos (Nat.sub_lt hpos Nat.one_pos)
  refine ⟨hcount, ?_⟩
  rw [hext.lastRoot?_eq (by omega) (Nat.zero_le i) hi, hlast, hcount, Nat.add_sub_cancel]

theorem Extends.recordCount_eq
    (h : l.pattern.sharedSteps repetition ≠ 0 ∨ l.pattern.definedSteps definition = 0) :
    recordCount l'.lists = recordCount l.lists := by
  rw [recordCount, hext.kept 0 (by omega), recordCount]

/-- An entry that shares some steps opens nodes in the record of the last node of these. -/
theorem Extends.lastRoot?_above (hl : Sound l) (hshared : l.pattern.sharedSteps repetition ≠ 0)
    (hi : l.pattern.sharedSteps repetition ≤ i) (hlt : i < l.pattern.definedSteps definition) :
    lastRoot? l'.lists i = lastRoot? l.lists (l.pattern.sharedSteps repetition - 1) := by
  rw [hext.lastRoot?_eq (j := l.pattern.sharedSteps repetition - 1) (by omega) (by omega) hlt,
    hext.lastRoot?_kept hl (by omega)]

/-- What is appended at a step is its last node. -/
theorem Extends.rootOf?_new (hn : (parentsAt l.lists i).length ≤ n)
    (hlt : n < (parentsAt l'.lists i).length) :
    (l.pattern.sharedSteps repetition ≤ i ∧ i < l.pattern.definedSteps definition) ∧
      rootOf? l'.lists i n = lastRoot? l'.lists i := by
  by_cases hi : l.pattern.sharedSteps repetition ≤ i ∧ i < l.pattern.definedSteps definition
  · refine ⟨hi, ?_⟩
    obtain ⟨step, -, hlist⟩ := hext.exists_step hi
    have hlength : (parentsAt l'.lists i).length ≤ (parentsAt l.lists i).length + 1 := by
      rw [hlist, openNode]
      split <;> simp
    obtain rfl : n = (parentsAt l'.lists i).length - 1 := by omega
    rfl
  · rw [hext.kept i hi] at hlt
    omega

end

/-! ## The last record -/

theorem lastRecord_empty (p : Pattern) : LastRecord 0 (empty p).lists := by
  refine ⟨fun i hi => absurd hi (Nat.not_lt_zero i), fun i _ root hroot => ?_⟩
  rw [lastRoot?, rootOf?_eq_none (by rw [parentsAt_empty]; exact Nat.zero_le _)] at hroot
  cases hroot

section

variable (hl : Sound l) (hext : Extends definition repetition l l')
include hl hext

/-- An entry that begins a record: the last nodes that it does not open are left from before. -/
theorem lastRecord_of_new (hshared : l.pattern.sharedSteps repetition = 0)
    (hopens : 0 < l.pattern.definedSteps definition) :
    LastRecord (l.pattern.definedSteps definition) l'.lists := by
  refine ⟨fun i hi => ?_, fun i hi root hroot => ?_⟩
  · obtain ⟨hcount, hlast⟩ := hext.lastRoot?_new hshared hi
    rw [hlast, hcount, Nat.add_sub_cancel]
  · obtain ⟨hcount, -⟩ := hext.lastRoot?_new hshared hopens
    rw [hext.lastRoot?_kept hl (by omega)] at hroot
    have := lt_recordCount_of_rootOf? hroot
    omega

variable (h : LastRecord own l.lists)
include h

/-- An entry that goes on below a node of the last record. -/
theorem LastRecord.of_inside (hshared : l.pattern.sharedSteps repetition ≠ 0)
    (hown : l.pattern.sharedSteps repetition ≤ own) :
    LastRecord (max own (l.pattern.definedSteps definition)) l'.lists := by
  have hcount := hext.recordCount_eq (.inl hshared)
  refine ⟨fun i hi => ?_, fun i hi root hroot => ?_⟩
  · rw [hcount]
    by_cases hopened : l.pattern.sharedSteps repetition ≤ i ∧ i < l.pattern.definedSteps definition
    · rw [hext.lastRoot?_above hl hshared hopened.1 hopened.2]
      exact h.inside _ (by omega)
    · rw [hext.lastRoot?_kept hl hopened]
      exact h.inside i (by omega)
  · rw [hext.lastRoot?_kept hl (by omega)] at hroot
    rw [hcount]
    exact h.outside i (by omega) root hroot

/-- An entry that goes on below a node of an earlier record. -/
theorem LastRecord.of_outside (hown : own < l.pattern.sharedSteps repetition) :
    LastRecord own l'.lists := by
  have hshared : l.pattern.sharedSteps repetition ≠ 0 := by omega
  have hcount := hext.recordCount_eq (.inl hshared)
  refine ⟨fun i hi => ?_, fun i hi root hroot => ?_⟩
  · rw [hext.lastRoot?_kept hl (by omega), hcount]
    exact h.inside i hi
  · rw [hcount]
    by_cases hopened : l.pattern.sharedSteps repetition ≤ i ∧ i < l.pattern.definedSteps definition
    · rw [hext.lastRoot?_above hl hshared hopened.1 hopened.2] at hroot
      exact h.outside _ (by omega) root hroot
    · rw [hext.lastRoot?_kept hl hopened] at hroot
      exact h.outside i hi root hroot

/-- An entry that opens no node. -/
theorem LastRecord.of_nothing
    (hopens : l.pattern.definedSteps definition ≤ l.pattern.sharedSteps repetition) :
    LastRecord own l'.lists := by
  have hcount := hext.recordCount_eq (by omega)
  refine ⟨fun i hi => ?_, fun i hi root hroot => ?_⟩
  · rw [hext.lastRoot?_kept hl (by omega), hcount]
    exact h.inside i hi
  · rw [hext.lastRoot?_kept hl (by omega)] at hroot
    rw [hcount]
    exact h.outside i hi root hroot

end

theorem LastRecord.of_extends (h : LastRecord own l.lists) (hl : Sound l)
    (hext : Extends e.1 e.2 l l') : LastRecord (recordStepsAfter l.pattern own e) l'.lists := by
  unfold recordStepsAfter
  split
  next hopens =>
    split
    next hshared => exact lastRecord_of_new hl hext hshared (by omega)
    next hshared =>
      split
      next hown => exact h.of_inside hl hext hshared hown
      next hown => exact h.of_outside hl hext (Nat.not_le.1 hown)
  next hopens => exact h.of_nothing hl hext (Nat.not_lt.1 hopens)

theorem LastRecord.of_addAll (h : LastRecord own l.lists) (hl : Sound l)
    (hall : addAll entries l = .ok () l') :
    LastRecord (entries.foldl (recordStepsAfter l.pattern) own) l'.lists := by
  induction entries generalizing l own with
  | nil =>
    cases hall
    exact h
  | cons e entries ih =>
    obtain ⟨l₁, hadd, hrest⟩ := of_addAll_cons hall
    obtain ⟨hc, hext⟩ := Extends.of_add hl.size_eq hadd
    have hstep := ih (h.of_extends hl hext) (hl.of_extends hext hc) hrest
    rwa [hext.pattern_eq] at hstep

/-- A step has no node as long as no entry has opened one there. -/
theorem parentsAt_eq_nil_iff_of_addAll (hl : Sound l) (hall : addAll entries l = .ok () l') :
    parentsAt l'.lists i = [] ↔
      parentsAt l.lists i = [] ∧ ∀ e ∈ entries, ¬ opensAt l.pattern i e := by
  induction entries generalizing l with
  | nil =>
    cases hall
    simp
  | cons e entries ih =>
    obtain ⟨l₁, hadd, hrest⟩ := of_addAll_cons hall
    obtain ⟨hc, hext⟩ := Extends.of_add hl.size_eq hadd
    rw [ih (hl.of_extends hext hc) hrest, hext.pattern_eq, List.forall_mem_cons, ← and_assoc]
    refine and_congr_left fun _ => ?_
    by_cases hopens : opensAt l.pattern i e
    · obtain ⟨hshared, hdefined⟩ := opensAt_iff.1 hopens
      simp [hopens, hext.opened_ne_nil hshared hdefined]
    · rw [hext.kept i fun h => hopens (opensAt_iff.2 h)]
      simp [hopens]

/-! ## Where an entry goes -/

section

variable (h : LastRecord own l.lists) (hl : Sound l)
include h hl

/-- An entry that opens no node, or goes on at a step where the last record has nodes, is added to
the last record. -/
theorem LastRecord.add_inside
    (hown : l.pattern.definedSteps definition ≤ l.pattern.sharedSteps repetition ∨
      l.pattern.sharedSteps repetition ≤ own) :
    ∃ l', add definition repetition l = .ok () l' ∧
      ∀ i n, (parentsAt l.lists i).length ≤ n → n < (parentsAt l'.lists i).length →
        rootOf? l'.lists i n = some (recordCount l'.lists - 1) := by
  have hcontinues : l.Continues definition repetition := by
    intro hopens hshared hnil
    have hlast := h.inside (l.pattern.sharedSteps repetition - 1) (by omega)
    rw [lastRoot?, rootOf?_eq_none (by rw [hnil]; exact Nat.zero_le _)] at hlast
    cases hlast
  obtain ⟨l', hadd, hext⟩ := add_eq_ok hl.size_eq hcontinues
  refine ⟨l', hadd, fun i n hn hlt => ?_⟩
  obtain ⟨⟨hi, hdefined⟩, hroot⟩ := hext.rootOf?_new hn hlt
  rw [hroot]
  by_cases hshared : l.pattern.sharedSteps repetition = 0
  · obtain ⟨hcount, hlast⟩ := hext.lastRoot?_new hshared hdefined
    rw [hlast, hcount, Nat.add_sub_cancel]
  · rw [hext.lastRoot?_above hl hshared hi hdefined, hext.recordCount_eq (.inl hshared)]
    exact h.inside _ (by omega)

/-- An entry that goes on at a step where the last record has no nodes is added to an earlier one,
if that has any there. -/
theorem LastRecord.add_outside (hown : own < l.pattern.sharedSteps repetition)
    (hne : parentsAt l.lists (l.pattern.sharedSteps repetition - 1) ≠ []) :
    ∃ l', add definition repetition l = .ok () l' ∧
      ∀ i n, (parentsAt l.lists i).length ≤ n → n < (parentsAt l'.lists i).length →
        ∃ root, rootOf? l'.lists i n = some root ∧ root + 1 < recordCount l'.lists := by
  obtain ⟨l', hadd, hext⟩ := add_eq_ok hl.size_eq fun _ _ => hne
  refine ⟨l', hadd, fun i n hn hlt => ?_⟩
  obtain ⟨⟨hi, hdefined⟩, hroot⟩ := hext.rootOf?_new hn hlt
  have hpos := List.length_pos_iff.2 hne
  obtain ⟨root, hlast⟩ := hl.exists_rootOf?_eq (Nat.sub_lt hpos Nat.one_pos)
  refine ⟨root, ?_, ?_⟩
  · rw [hroot, hext.lastRoot?_above hl (by omega) hi hdefined]
    exact hlast
  · rw [hext.recordCount_eq (.inl (by omega))]
    exact h.outside _ (by omega) root hlast

end

/-- Which record the nodes of an entry are added to. They are in the last one if the entry goes on
at a step where that record has nodes, which always holds of an entry that begins a record.
Otherwise they are in an earlier record, if any entry has opened a node at the step in question, and
the entry is refused as corrupt only if none has. -/
theorem add_to_record {p : Pattern} {nodes : ParentLists}
    (hall : addAll entries (empty p) = .ok () nodes) (definition repetition : Int16) :
    (p.definedSteps definition ≤ p.sharedSteps repetition ∨
        p.sharedSteps repetition ≤ recordSteps p entries →
      ∃ nodes', add definition repetition nodes = .ok () nodes' ∧
        ∀ i n, (parentsAt nodes.lists i).length ≤ n → n < (parentsAt nodes'.lists i).length →
          rootOf? nodes'.lists i n = some (recordCount nodes'.lists - 1)) ∧
    (recordSteps p entries < p.sharedSteps repetition →
        p.sharedSteps repetition < p.definedSteps definition →
      ((∃ e ∈ entries, opensAt p (p.sharedSteps repetition - 1) e) →
        ∃ nodes', add definition repetition nodes = .ok () nodes' ∧
          ∀ i n, (parentsAt nodes.lists i).length ≤ n → n < (parentsAt nodes'.lists i).length →
            ∃ root, rootOf? nodes'.lists i n = some root ∧ root + 1 < recordCount nodes'.lists) ∧
      ((∀ e ∈ entries, ¬ opensAt p (p.sharedSteps repetition - 1) e) →
        add definition repetition nodes =
          .error (.orphanLevels definition repetition (p.sharedSteps repetition - 1)) nodes)) := by
  obtain ⟨hl, hpattern⟩ := (sound_empty p).of_addAll hall
  have hrecord : LastRecord (recordSteps p entries) nodes.lists :=
    (lastRecord_empty p).of_addAll (sound_empty p) hall
  have hnil : parentsAt nodes.lists (p.sharedSteps repetition - 1) = [] ↔
      ∀ e ∈ entries, ¬ opensAt p (p.sharedSteps repetition - 1) e := by
    rw [parentsAt_eq_nil_iff_of_addAll (sound_empty p) hall, parentsAt_empty, eq_self, true_and]
    exact Iff.rfl
  obtain rfl : nodes.pattern = p := hpattern
  refine ⟨fun hown => hrecord.add_inside hl hown, fun hown hopens => ⟨?_, fun hnone => ?_⟩⟩
  · rintro ⟨e, he, hopen⟩
    exact hrecord.add_outside hl hown fun h => hnil.1 h e he hopen
  · refine add_eq_error fun hcontinues => hcontinues hopens (by omega) ?_
    exact hnil.2 hnone

/-- The last record has no list, so that an element of one goes to the list of the record before. -/
theorem add_to_record_list :
    addAll [(2, 0), (0, 0)] (empty ⟨[.repeated, .repeated, .repeated], rfl, by decide⟩) =
        .ok () ⟨⟨[.repeated, .repeated, .repeated], rfl, by decide⟩, #[#[0, 0], #[0], #[0]]⟩ ∧
      recordSteps ⟨[.repeated, .repeated, .repeated], rfl, by decide⟩ [(2, 0), (0, 0)] = 1 ∧
      ∃ nodes, add 2 2
          ⟨⟨[.repeated, .repeated, .repeated], rfl, by decide⟩, #[#[0, 0], #[0], #[0]]⟩ =
            .ok () nodes ∧
        parentsAt nodes.lists 2 = [0, 0] ∧ rootOf? nodes.lists 2 1 = some 0 := by
  have hall : addAll [(2, 0), (0, 0)]
      (empty ⟨[.repeated, .repeated, .repeated], rfl, by decide⟩) =
        .ok () ⟨⟨[.repeated, .repeated, .repeated], rfl, by decide⟩, #[#[0, 0], #[0], #[0]]⟩ := rfl
  have hadd : add 2 2
      ⟨⟨[.repeated, .repeated, .repeated], rfl, by decide⟩, #[#[0, 0], #[0], #[0]]⟩ =
        .ok () ⟨⟨[.repeated, .repeated, .repeated], rfl, by decide⟩, #[#[0, 0], #[0], #[0, 0]]⟩ :=
    rfl
  obtain ⟨-, houtside⟩ := add_to_record hall 2 2
  obtain ⟨haccepted, -⟩ := houtside (by decide) (by decide)
  obtain ⟨nodes, hnodes, hroots⟩ := haccepted ⟨(2, 0), by decide, by decide⟩
  obtain ⟨-, rfl⟩ := EStateM.Result.ok.inj (hadd.symm.trans hnodes)
  obtain ⟨root, hroot, hlt⟩ := hroots 2 1 (by decide) (by decide)
  have hzero : root + 1 < 2 := hlt
  obtain rfl : root = 0 := by omega
  exact ⟨hall, by decide, _, hnodes, rfl, hroot⟩

/-- Not all nodes that an entry appends are in the last record. -/
theorem not_add_to_last_record :
    ¬ ∀ (p : Pattern) (entries : List (Int16 × Int16)) (nodes nodes' : ParentLists)
        (definition repetition : Int16),
      (∀ e ∈ (definition, repetition) :: entries,
        0 ≤ e.1 ∧ e.1 ≤ p.maxDefinition ∧ 0 ≤ e.2 ∧ e.2 ≤ p.maxRepetition) →
      addAll entries (empty p) = .ok () nodes → add definition repetition nodes = .ok () nodes' →
      ∀ i n, (parentsAt nodes.lists i).length ≤ n → n < (parentsAt nodes'.lists i).length →
        rootOf? nodes'.lists i n = some (recordCount nodes'.lists - 1) := by
  intro hlast
  have hdefinition :
      (⟨[.repeated, .repeated, .repeated], rfl, by decide⟩ : Pattern).maxDefinition = 2 := rfl
  have hrepetition :
      (⟨[.repeated, .repeated, .repeated], rfl, by decide⟩ : Pattern).maxRepetition = 2 := rfl
  have hroot := hlast ⟨[.repeated, .repeated, .repeated], rfl, by decide⟩ [(2, 0), (0, 0)]
    ⟨⟨[.repeated, .repeated, .repeated], rfl, by decide⟩, #[#[0, 0], #[0], #[0]]⟩
    ⟨⟨[.repeated, .repeated, .repeated], rfl, by decide⟩, #[#[0, 0], #[0], #[0, 0]]⟩ 2 2
    (by simp [hdefinition, hrepetition]) rfl rfl 2 1 (by decide) (by decide)
  exact absurd hroot (by decide)

end ParentLists

end WireColumns
