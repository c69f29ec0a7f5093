import WireColumns.Proofs.Nesting.Reading
import WireColumns.Proofs.Nesting.Required

/-! # Values and leaf nodes

A column that is built from levels gives a value to the entries with the greatest definition level.
Whether an entry opens a node at the leaf is decided elsewhere, by the walk down the pattern. The
two agree as long as the levels are among those that the pattern has, whatever order they are in: an
entry starts at a repeated step or above one, from where on every node it opens is a new one, and it
comes down to the leaf just if its definition level is the greatest (`Extends.leaves_eq`). So the
values of a batch line up with its leaf nodes (`BatchReader.values_line_up`). -/

namespace WireColumns

open ParentLists

variable {α : Type}

namespace ParentLists

/-- The parents of the nodes at the leaf. -/
def leaves (l : ParentLists) : List Nat := parentsAt l.lists (l.pattern.steps.length - 1)

/-- The parents of the nodes at the leaf that the given entries open. -/
def leavesAfter (p : Pattern) (entries : List (LevelEntry α)) : List Nat :=
  (finalState (addAll (entries.map LevelEntry.levels) (.empty p))).leaves

end ParentLists

/-- The levels of the entry are among those of the pattern, and it has a value if its definition
level is the greatest. -/
structure LevelEntry.FitsIn (p : Pattern) (e : LevelEntry α) : Prop where
  admits : p.Admits e.levels
  isSome_value?_iff : e.value?.isSome ↔ e.definition = p.maxDefinition

/-- The column is built from values and levels that its pattern has, and may have been read in
part. -/
def LeafColumn.IsFromLevels (c : LeafColumn α) : Prop :=
  ∃ definitions repetitions values column,
    LevelColumn.ofLevels definitions repetitions values c.pattern.maxDefinition = .ok column ∧
    (∀ e ∈ definitions.zip repetitions, c.pattern.Admits e) ∧ c.column.rest <:+ column.rest

/-- The values of a batch are those of the entries that open the leaf nodes, in order; the batch has
taken the entries `taken`. -/
structure ColumnBatch.LinesUp (p : Pattern) (taken : List (LevelEntry α)) (part : ColumnBatch α) :
    Prop where
  size_eq : part.parents.size = p.steps.length
  leaves_eq : parentsAt part.parents (p.steps.length - 1) = leavesAfter p taken
  length_eq : part.values.length = (leavesAfter p taken).length
  value_iff : ∀ k value, part.values[k]? = some value ↔
    ∃ front e back parent, taken = front ++ e :: back ∧ (leavesAfter p front).length = k ∧
      leavesAfter p (front ++ [e]) = leavesAfter p front ++ [parent] ∧ e.value? = some value
  kept : ∀ front e back, taken = front ++ e :: back → e.definition < p.maxDefinition →
    leavesAfter p (front ++ [e]) = leavesAfter p front

/-! ## Columns built from levels -/

namespace LevelColumn

variable {present : Int16} {seen : Array (LevelEntry α)} {levels : List (Int16 × Int16)}
  {values : List α} {entries : List (LevelEntry α)}

theorem assignFrom_eq_ok (h : assignFrom present seen levels values = .ok entries) :
    ∃ more, entries = seen.toList ++ more ∧ more.map LevelEntry.levels = levels ∧
      more.filterMap LevelEntry.value? = values ∧
      ∀ e ∈ more, e.value?.isSome ↔ e.definition = present := by
  induction levels generalizing seen values with
  | nil =>
    cases values with
    | nil =>
      cases h
      exact ⟨[], (List.append_nil _).symm, rfl, rfl, by simp⟩
    | cons value values => cases h
  | cons level levels ih =>
    obtain ⟨definition, repetition⟩ := level
    rw [assignFrom.eq_def] at h
    dsimp only at h
    split at h
    next hpresent =>
      cases values with
      | nil => cases h
      | cons value values =>
        obtain ⟨more, rfl, rfl, rfl, hvalued⟩ := ih h
        refine ⟨⟨definition, repetition, some value⟩ :: more, by simp, rfl, rfl, ?_⟩
        rw [List.forall_mem_cons]
        exact ⟨iff_of_true rfl hpresent, hvalued⟩
    next habsent =>
      obtain ⟨more, rfl, rfl, rfl, hvalued⟩ := ih h
      refine ⟨⟨definition, repetition, none⟩ :: more, by simp, rfl, rfl, ?_⟩
      rw [List.forall_mem_cons]
      exact ⟨iff_of_false (by simp) habsent, hvalued⟩

/-- A column has the levels it is built from, and the values in the places of the greatest
definition level. -/
theorem ofLevels_eq_ok {definitions repetitions : List Int16} {column : LevelColumn α}
    (h : ofLevels definitions repetitions values present = .ok column) :
    column.rest.map LevelEntry.levels = definitions.zip repetitions ∧
      column.rest.filterMap LevelEntry.value? = values ∧
      ∀ e ∈ column.rest, e.value?.isSome ↔ e.definition = present := by
  rw [ofLevels] at h
  split at h
  next => cases h
  next =>
    split at h
    next entries hassign =>
      cases h
      obtain ⟨more, rfl, hlevels, hvalues, hvalued⟩ := assignFrom_eq_ok hassign
      exact ⟨hlevels, hvalues, hvalued⟩
    next => cases h

end LevelColumn

namespace LeafColumn

variable {c c' : LeafColumn α}

theorem IsFromLevels.fitsIn (h : c.IsFromLevels) : ∀ e ∈ c.column.rest, e.FitsIn c.pattern := by
  obtain ⟨definitions, repetitions, values, column, hcolumn, hadmits, hsuffix⟩ := h
  obtain ⟨hlevels, -, hvalued⟩ := LevelColumn.ofLevels_eq_ok hcolumn
  intro e he
  have hmem := hsuffix.subset he
  refine ⟨hadmits _ ?_, hvalued e hmem⟩
  rw [← hlevels]
  exact List.mem_map_of_mem hmem

theorem IsFromLevels.of_follows (h : c.IsFromLevels) (hfollows : Follows c c') :
    c'.IsFromLevels := by
  obtain ⟨definitions, repetitions, values, column, hcolumn, hadmits, hsuffix⟩ := h
  rw [← hfollows.pattern_eq] at hcolumn hadmits
  exact ⟨definitions, repetitions, values, column, hcolumn, hadmits, hfollows.suffix.trans hsuffix⟩

end LeafColumn

/-! ## Opening leaf nodes -/

namespace ParentLists

variable {p : Pattern} {l l' : ParentLists} {definition repetition : Int16}
  {entries front back : List (LevelEntry α)} {e : LevelEntry α}

/-- An entry opens one leaf node if its definition level is the greatest, and none otherwise. -/
theorem Extends.leaves_eq (h : Extends definition repetition l l') (hl : Sound l)
    (hadmits : l.pattern.Admits (definition, repetition)) :
    (definition = l.pattern.maxDefinition → ∃ parent, l'.leaves = l.leaves ++ [parent]) ∧
      (definition ≠ l.pattern.maxDefinition → l'.leaves = l.leaves) := by
  have hpos := l.pattern.length_steps_pos
  have hleaf := hadmits.lt_definedSteps_leaf_iff
  rw [leaves, leaves, h.pattern_eq]
  constructor
  · intro hmax
    obtain ⟨j, hj, hshared⟩ := hadmits.exists_repeated
    obtain ⟨hlt, -⟩ := List.getElem?_eq_some_iff.1 hj
    exact ⟨_, h.list_eq_append hl hj hshared (Nat.le_sub_one_of_lt hlt) (hleaf.2 hmax)⟩
  · intro hless
    exact h.kept _ fun hopens => hless (hleaf.1 hopens.2)

/-- Entries open as many leaf nodes as they have values. -/
theorem length_leaves_of_addAll (hl : Sound l) (hfits : ∀ e ∈ entries, e.FitsIn l.pattern)
    (h : addAll (entries.map LevelEntry.levels) l = .ok () l') :
    l'.leaves.length = l.leaves.length + (entries.filterMap LevelEntry.value?).length := by
  induction entries generalizing l with
  | nil =>
    cases h
    rfl
  | cons e entries ih =>
    rw [List.forall_mem_cons] at hfits
    obtain ⟨he, hfits⟩ := hfits
    obtain ⟨l₁, hadd, hall⟩ := of_addAll_cons h
    obtain ⟨hc, hext⟩ := Extends.of_add hl.size_eq hadd
    obtain ⟨hopens, hkeeps⟩ := hext.leaves_eq hl he.admits
    rw [← hext.pattern_eq] at hfits
    rw [ih (hl.of_extends hext hc) hfits hall, List.filterMap_cons]
    cases hvalue : e.value? with
    | none =>
      have habsent : e.definition ≠ l.pattern.maxDefinition := by
        intro hmax
        have hsome := he.isSome_value?_iff.2 hmax
        rw [hvalue] at hsome
        cases hsome
      rw [hkeeps habsent]
    | some value =>
      obtain ⟨parent, hleaves⟩ := hopens (he.isSome_value?_iff.1 (by rw [hvalue]; rfl))
      rw [hleaves, List.length_append, List.length_singleton]
      simp only [List.length_cons]
      omega

theorem leavesAfter_of_addAll (h : addAll (entries.map LevelEntry.levels) (.empty p) = .ok () l) :
    leavesAfter p entries = l.leaves := by
  rw [leavesAfter, h]
  rfl

/-- What the first of some entries open at the leaf. -/
theorem length_leavesAfter (hfits : ∀ e ∈ front, e.FitsIn p)
    (h : addAll ((front ++ back).map LevelEntry.levels) (.empty p) = .ok () l) :
    (leavesAfter p front).length = (front.filterMap LevelEntry.value?).length := by
  rw [List.map_append] at h
  obtain ⟨l₁, hfront, -⟩ := of_addAll_append h
  have hempty : (empty p).leaves = [] := parentsAt_empty p _
  rw [leavesAfter_of_addAll hfront, length_leaves_of_addAll (sound_empty p) hfits hfront, hempty,
    List.length_nil, Nat.zero_add]

/-- What one of some entries opens at the leaf. -/
theorem leavesAfter_concat (hadmits : p.Admits e.levels)
    (h : addAll ((front ++ e :: back).map LevelEntry.levels) (.empty p) = .ok () l) :
    (e.definition = p.maxDefinition →
        ∃ parent, leavesAfter p (front ++ [e]) = leavesAfter p front ++ [parent]) ∧
      (e.definition ≠ p.maxDefinition → leavesAfter p (front ++ [e]) = leavesAfter p front) := by
  rw [List.append_cons, List.map_append] at h
  obtain ⟨l₂, hboth, -⟩ := of_addAll_append h
  have hsteps := hboth
  rw [List.map_append] at hsteps
  obtain ⟨l₁, hfront, hlast⟩ := of_addAll_append hsteps
  obtain ⟨l₂, hadd, hnil⟩ := of_addAll_cons hlast
  cases hnil
  obtain ⟨hl, rfl⟩ := (sound_empty p).of_addAll hfront
  rw [leavesAfter_of_addAll hfront, leavesAfter_of_addAll hboth]
  exact (Extends.of_add hl.size_eq hadd).2.leaves_eq hl hadmits

end ParentLists

open LeafColumn

/-- What a batch takes of a column whose entries fit in its pattern lines up. -/
theorem LeafColumn.Takes.linesUp {c c' : LeafColumn α} {taken : List (LevelEntry α)}
    {part : ColumnBatch α} {n : Nat} (h : Takes c taken part n c')
    (hfits : ∀ e ∈ c.column.rest, e.FitsIn c.pattern) : part.LinesUp c.pattern taken := by
  obtain ⟨nodes, hall, hparents⟩ := h.nodes
  obtain ⟨hsound, hpattern⟩ := (sound_empty c.pattern).of_addAll hall
  rw [h.rest_eq] at hfits
  replace hfits := fun e he => hfits e (List.mem_append_left _ he)
  refine ⟨?_, ?_, ?_, fun k value => ?_, ?_⟩
  · rw [hparents, hsound.size_eq, hpattern]
    rfl
  · rw [hparents, leavesAfter_of_addAll hall, leaves, hpattern]
    rfl
  · rw [← List.append_nil taken] at hall
    rw [h.values_eq, length_leavesAfter hfits hall]
  · rw [h.values_eq, getElem?_filterMap_eq_some_iff]
    constructor
    · rintro ⟨front, e, back, rfl, rfl, hvalue⟩
      rw [List.forall_mem_append, List.forall_mem_cons] at hfits
      obtain ⟨hfront, he, -⟩ := hfits
      have hmax := he.isSome_value?_iff.1 (by rw [hvalue]; rfl)
      obtain ⟨parent, hopens⟩ := (leavesAfter_concat he.admits hall).1 hmax
      exact ⟨front, e, back, parent, rfl, length_leavesAfter hfront hall, hopens, hvalue⟩
    · rintro ⟨front, e, back, parent, rfl, rfl, -, hvalue⟩
      rw [List.forall_mem_append] at hfits
      exact ⟨front, e, back, rfl, (length_leavesAfter hfits.1 hall).symm, hvalue⟩
  · rintro front e back rfl hless
    have he := hfits e (List.mem_append_right _ List.mem_cons_self)
    exact (leavesAfter_concat he.admits hall).2 (Int16.ne_of_lt hless)

namespace BatchReader

variable {batchSize : Nat} {r r' : BatchReader α} {columns : List (LeafColumn α)}
  {batch : RecordBatch α}

/-- Values line up with leaf nodes. Whatever reads have come before, a batch that is read brings as
many values of a column that is built from levels as it has nodes at the leaf; the `k`-th value is
that of the entry that has opened the `k`-th of them, and an entry with a smaller definition level
than the greatest has opened none. -/
theorem values_line_up (h : ofColumns columns batchSize = .ok r) (n : Nat)
    (hread : readBatch (r.afterReads n) = .ok batch r') :
    batch.columns.length = columns.length ∧
      ∀ (i : Nat) (c₀ : LeafColumn α), columns[i]? = some c₀ → c₀.IsFromLevels →
        ∃ c taken part c', (r.afterReads n).columns[i]? = some c ∧ Follows c₀ c ∧
          batch.columns[i]? = some part ∧ r'.columns[i]? = some c' ∧
          Takes c taken part batch.recordCount c' ∧ part.LinesUp c₀.pattern taken := by
  obtain ⟨hsize, -, rfl⟩ := of_ofColumns h
  replace hsize : (afterReads ⟨columns, batchSize, 0⟩ n).batchSize ≠ 0 := by
    rwa [batchSize_afterReads]
  have hfollows := forall₂_follows_afterReads ⟨columns, batchSize, 0⟩ n
  refine ⟨(length_of_readBatch hread).trans hfollows.length_eq.symm, ?_⟩
  intro i c₀ hc₀ hbuilt
  obtain ⟨c, hc, hfollow⟩ := exists_getElem?_of_forall₂ (List.Forall₂.flip hfollows) hc₀
  obtain ⟨part, taken, c', hpart, hc', htakes⟩ := exists_takes_of_readBatch hsize hread hc
  refine ⟨c, taken, part, c', hc, hfollow, hpart, hc', htakes, ?_⟩
  rw [← hfollow.pattern_eq]
  exact htakes.linesUp (hbuilt.of_follows hfollow).fitsIn

/-- Optional lists in batches of two records; the second batch has an empty list and one of a single
element. -/
theorem values_line_up_lists :
    ∃ r batch r', ofColumns [⟨.ofEntries [⟨2, 0, some 'a'⟩, ⟨2, 1, some 'b'⟩, ⟨0, 0, none⟩,
          ⟨1, 0, none⟩, ⟨2, 0, some 'c'⟩], ⟨[.repeated, .optional, .repeated], rfl, by decide⟩⟩] 2 =
        .ok r ∧
      readBatch (r.afterReads 1) = .ok batch r' ∧ ∃ taken part,
        batch.columns = [part] ∧ part.parents = #[#[0, 0], #[0, 1], #[1]] ∧ part.values = ['c'] ∧
        part.LinesUp ⟨[.repeated, .optional, .repeated], rfl, by decide⟩ taken := by
  have hreader : ofColumns [⟨.ofEntries [⟨2, 0, some 'a'⟩, ⟨2, 1, some 'b'⟩, ⟨0, 0, none⟩,
      ⟨1, 0, none⟩, ⟨2, 0, some 'c'⟩], ⟨[.repeated, .optional, .repeated], rfl, by decide⟩⟩] 2 =
    .ok ⟨_, 2, 0⟩ := rfl
  obtain ⟨-, hcolumns⟩ := values_line_up hreader 1 rfl
  obtain ⟨c, taken, part, c', hc, -, hpart, -, -, hlines⟩ := hcolumns 0 _ rfl <| by
    refine ⟨[2, 2, 0, 1, 2], [0, 1, 0, 0, 0], ['a', 'b', 'c'], _, rfl, ?_, List.suffix_refl _⟩
    simp only [List.zip_cons_cons, List.zip_nil_right, List.forall_mem_cons, List.not_mem_nil,
      false_imp_iff, implies_true, and_true]
    decide
  cases hpart
  exact ⟨_, _, _, hreader, rfl, taken, _, rfl, rfl, rfl, hlines⟩

end BatchReader

end WireColumns
