import WireColumns.Proofs.Nesting.Adding
import WireColumns.Proofs.Results

/-! # Parents in order

Whatever the levels of the entries are, and also where some are refused, the lists that come about
are well formed (`ParentLists.WellFormed`): the parents at a step exist and stand in order, and an
optional step has at most one node under each. The reason is that nodes are opened only below the
last node of the step above (`WellFormed.le_lastAbove`). An entry that is refused has opened nothing
(`of_add_eq_error`), because only the first of the steps where it opens nodes can lack a parent. -/

namespace WireColumns.ParentLists

variable {l l' : ParentLists} {definition repetition : Int16} {i parent : Nat} {list : List Nat}

/-- All parents are nodes of the step above, in order, and optional steps have at most one node
under a parent. The nodes of the root step have parent 0. -/
structure WellFormed (l : ParentLists) : Prop extends Sound l where
  root_zero : ∀ parent ∈ parentsAt l.lists 0, parent = 0
  ascending : ∀ i, (parentsAt l.lists i).Pairwise (· ≤ ·)
  optional_once : ∀ i, l.pattern.steps[i]? = some .optional →
    (parentsAt l.lists i).Pairwise (· < ·)

/-- The lists after an entry, also one that is refused. -/
def offer (l : ParentLists) (e : Int16 × Int16) : ParentLists := finalState (add e.1 e.2 l)

/-- The lists after some entries, of which any may have been refused. -/
def offered (p : Pattern) (entries : List (Int16 × Int16)) : ParentLists :=
  entries.foldl offer (empty p)

/-! ## Opening a node in an ordered list -/

theorem pairwise_openNode (h : list.Pairwise (· ≤ ·)) (hle : ∀ other ∈ list, other ≤ parent)
    (step : Repetition) : (openNode parent step list).Pairwise (· ≤ ·) := by
  unfold openNode
  split
  · exact h
  · exact List.pairwise_append.2 ⟨h, List.pairwise_singleton _ _, by simpa using hle⟩

/-- In an ordered list it is enough to look at the last parent. -/
theorem lt_of_getLast?_ne (h : list.Pairwise (· ≤ ·)) (hle : ∀ other ∈ list, other ≤ parent)
    (hlast : list.getLast? ≠ some parent) : ∀ other ∈ list, other < parent := by
  intro other hmem
  have hne : list ≠ [] := List.ne_nil_of_mem hmem
  rw [List.getLast?_eq_some_getLast hne, ne_eq, Option.some_inj] at hlast
  calc other ≤ list.getLast hne := h.rel_getLast hmem
    _ < parent := Nat.lt_of_le_of_ne (hle _ (List.getLast_mem hne)) hlast

theorem pairwise_openNode_optional (h : list.Pairwise (· < ·))
    (hle : ∀ other ∈ list, other ≤ parent) :
    (openNode parent .optional list).Pairwise (· < ·) := by
  unfold openNode
  split
  · exact h
  next hclosed =>
    have hlast : list.getLast? ≠ some parent := fun hlast => hclosed ⟨rfl, hlast⟩
    have hlt := lt_of_getLast?_ne (h.imp Nat.le_of_lt) hle hlast
    exact List.pairwise_append.2 ⟨h, List.pairwise_singleton _ _, by simpa using hlt⟩

/-! ## One entry -/

theorem wellFormed_empty (p : Pattern) : WellFormed (empty p) where
  toSound := sound_empty p
  root_zero parent hparent := by
    rw [parentsAt_empty] at hparent
    cases hparent
  ascending i := by
    rw [parentsAt_empty]
    exact List.Pairwise.nil
  optional_once i _ := by
    rw [parentsAt_empty]
    exact List.Pairwise.nil

section

variable (hl : WellFormed l) (h : Extends definition repetition l l')
include hl h

/-- The node below which one is opened comes behind all parents that are there. -/
theorem WellFormed.le_lastAbove (i : Nat) :
    ∀ other ∈ parentsAt l.lists i, other ≤ lastAbove l'.lists i := by
  intro other hmem
  unfold lastAbove
  split
  next hzero =>
    subst hzero
    exact Nat.le_of_eq (hl.root_zero other hmem)
  next hzero =>
    have hlt := hl.lt_length i hzero other hmem
    have hgrown := h.length_le (i - 1)
    omega

theorem WellFormed.of_extends (hc : l.Continues definition repetition) : WellFormed l' where
  toSound := hl.toSound.of_extends h hc
  root_zero parent hparent := by
    by_cases hi : l.pattern.sharedSteps repetition ≤ 0 ∧ 0 < l.pattern.definedSteps definition
    · obtain ⟨step, -, hlist⟩ := h.exists_step hi
      rw [hlist] at hparent
      rcases mem_openNode hparent with hold | hnew
      · exact hl.root_zero parent hold
      · rw [hnew, lastAbove, if_pos rfl]
    · rw [h.kept 0 hi] at hparent
      exact hl.root_zero parent hparent
  ascending i := by
    by_cases hi : l.pattern.sharedSteps repetition ≤ i ∧ i < l.pattern.definedSteps definition
    · obtain ⟨step, -, hlist⟩ := h.exists_step hi
      rw [hlist]
      exact pairwise_openNode (hl.ascending i) (hl.le_lastAbove h i) step
    · rw [h.kept i hi]
      exact hl.ascending i
  optional_once i hoptional := by
    rw [h.pattern_eq] at hoptional
    by_cases hi : l.pattern.sharedSteps repetition ≤ i ∧ i < l.pattern.definedSteps definition
    · rw [h.opened i _ hoptional hi.1 hi.2]
      exact pairwise_openNode_optional (hl.optional_once i hoptional) (hl.le_lastAbove h i)
    · rw [h.kept i hi]
      exact hl.optional_once i hoptional

end

/-- An entry is refused where the step that it goes on at has no node. It leaves the lists alone. -/
theorem of_add_eq_error {cause : Corruption} (hsize : l.lists.size = l.pattern.steps.length)
    (h : add definition repetition l = .error cause l') :
    ¬ l.Continues definition repetition ∧ l' = l := by
  by_cases hc : l.Continues definition repetition
  · obtain ⟨l₁, hadd, -⟩ := add_eq_ok hsize hc
    rw [hadd] at h
    cases h
  · rw [add_eq_error hc] at h
    cases h
    exact ⟨hc, rfl⟩

theorem WellFormed.offer (hl : WellFormed l) (e : Int16 × Int16) :
    WellFormed (l.offer e) ∧ (l.offer e).pattern = l.pattern := by
  unfold ParentLists.offer
  cases hadd : add e.1 e.2 l with
  | ok _ l' =>
    obtain ⟨hc, hext⟩ := Extends.of_add hl.size_eq hadd
    exact ⟨hl.of_extends hext hc, hext.pattern_eq⟩
  | error cause l' =>
    obtain ⟨-, rfl⟩ := of_add_eq_error hl.size_eq hadd
    exact ⟨hl, rfl⟩

/-! ## All entries -/

theorem WellFormed.foldl_offer (hl : WellFormed l) (entries : List (Int16 × Int16)) :
    WellFormed (entries.foldl ParentLists.offer l) ∧
      (entries.foldl ParentLists.offer l).pattern = l.pattern := by
  induction entries generalizing l with
  | nil => exact ⟨hl, rfl⟩
  | cons e entries ih =>
    obtain ⟨hstep, hpattern⟩ := hl.offer e
    obtain ⟨hrun, hkept⟩ := ih hstep
    exact ⟨hrun, hkept.trans hpattern⟩

/-- Whatever entries have come before, taken or refused, the lists are well formed, and an entry
that is refused leaves them as they are. -/
theorem wellFormed_offered (p : Pattern) (entries : List (Int16 × Int16)) :
    (offered p entries).pattern = p ∧ WellFormed (offered p entries) ∧
      ∀ definition repetition cause l',
        add definition repetition (offered p entries) = .error cause l' →
          l' = offered p entries := by
  obtain ⟨hwell, hpattern⟩ := (wellFormed_empty p).foldl_offer entries
  refine ⟨hpattern, hwell, fun definition repetition cause l' herror => ?_⟩
  exact (of_add_eq_error hwell.size_eq herror).2

/-- An entry that goes on at an optional step is refused as long as the step above has no node.
Where the node of the optional step is there, it gets no second one. -/
theorem wellFormed_offered_orphan :
    ∃ cause, add 3 2 (offered ⟨[.repeated, .repeated, .optional, .repeated], rfl, by decide⟩
        [(0, 0)]) =
          .error cause (offered ⟨[.repeated, .repeated, .optional, .repeated], rfl, by decide⟩
            [(0, 0)]) ∧
      (offered ⟨[.repeated, .repeated, .optional, .repeated], rfl, by decide⟩
        [(0, 0), (3, 2), (3, 0), (3, 2), (-1, 9)]).lists = #[#[0, 0], #[1], #[0], #[0, 0]] ∧
      WellFormed (offered ⟨[.repeated, .repeated, .optional, .repeated], rfl, by decide⟩
        [(0, 0), (3, 2), (3, 0), (3, 2), (-1, 9)]) := by
  have hrefused : add 3 2 (offered ⟨[.repeated, .repeated, .optional, .repeated], rfl, by decide⟩
      [(0, 0)]) = .error (.orphanLevels 3 2 1)
        ⟨⟨[.repeated, .repeated, .optional, .repeated], rfl, by decide⟩,
          #[#[0], #[], #[], #[]]⟩ := rfl
  have hkept := (wellFormed_offered _ [(0, 0)]).2.2 3 2 _ _ hrefused
  rw [hkept] at hrefused
  exact ⟨_, hrefused, rfl, (wellFormed_offered _ _).2.1⟩

end WireColumns.ParentLists
