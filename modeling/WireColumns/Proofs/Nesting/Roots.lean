import WireColumns.Proofs.Nesting.Reading
import WireColumns.Proofs.Nesting.Required

/-! # Root nodes and records

A batch counts a record at its first entry and at every later one with repetition level 0; a root
node is opened by the entries with repetition level 0 alone. With levels that the pattern has the
two counts differ only where a column starts inside a record, because its first entry has another
repetition level: that record has no root node (`LeafColumn.Takes.length_roots`). It is refused as
soon as one of its entries opens a node (`LeafColumn.IsOrphan.readRecords_eq_error`), but where they
all end above the step that they go on at, it is taken for a record. So a batch has one root node
per record just in the columns that do not start inside one (`BatchReader.one_root_per_record`). -/

namespace WireColumns

open ParentLists

variable {α : Type}

/-- An entry has nodes that it does not share with the entry before it. -/
def Pattern.OpensNode (p : Pattern) (e : LevelEntry α) : Prop :=
  p.sharedSteps e.repetition < p.definedSteps e.definition

instance (p : Pattern) (e : LevelEntry α) : Decidable (p.OpensNode e) :=
  inferInstanceAs (Decidable (_ < _))

namespace LeafColumn

/-- What is left of the column starts inside a record. -/
def isInside (c : LeafColumn α) : Bool := c.column.rest.head?.any (·.repetition != 0)

/-- What is left of the column starts inside a record, and behind the entries `front`, which open no
node, the entry `e` of that record opens one. -/
structure IsOrphan (c : LeafColumn α) (front : List (LevelEntry α)) (e : LevelEntry α)
    (back : List (LevelEntry α)) : Prop where
  rest_eq : c.column.rest = front ++ e :: back
  repetition_ne : ∀ e' ∈ front ++ [e], e'.repetition ≠ 0
  front_opens : ∀ e' ∈ front, ¬ c.pattern.OpensNode e'
  opens : c.pattern.OpensNode e

end LeafColumn

/-! ## Entries that open roots -/

namespace ParentLists

variable {p : Pattern} {l : ParentLists} {e : LevelEntry α} {entries : List (LevelEntry α)}

theorem opensAt_root_iff (h : p.Admits e.levels) : opensAt p 0 e.levels ↔ e.repetition = 0 := by
  rw [opensAt_iff, Nat.le_zero, h.sharedSteps_eq_zero_iff]
  exact and_iff_left h.definedSteps_pos

theorem length_roots_of_addAll (hadmits : ∀ e ∈ entries, p.Admits e.levels)
    (h : addAll (entries.map LevelEntry.levels) (.empty p) = .ok () l) :
    (parentsAt l.lists 0).length = entries.countP (·.repetition == 0) := by
  have hroot : (empty p).pattern.steps[0]? = some .repeated :=
    List.head?_eq_getElem?.symm.trans p.root_repeated
  rw [length_of_addAll (sound_empty p) hroot (by simp) h, parentsAt_empty, List.length_nil,
    Nat.zero_add, List.countP_map]
  refine List.countP_congr fun e he => ?_
  rw [beq_iff_eq]
  exact opensAt_root_iff (hadmits e he)

/-- An entry that opens no node leaves the lists as they are. -/
theorem add_eq_self (h : ¬ l.pattern.OpensNode e) : add e.definition e.repetition l = .ok () l := by
  obtain ⟨p, lists⟩ := l
  have hown :
      (p.steps.take (p.definedSteps e.definition)).drop (p.sharedSteps e.repetition) = [] := by
    rw [List.drop_eq_nil_iff, List.length_take]
    exact Nat.le_trans (Nat.min_le_left _ _) (Nat.not_lt.1 h)
  simp only [add, hown]
  rfl

/-- Without nodes, an entry that does not begin a record and opens a node is refused. -/
theorem add_empty_eq_error (hadmits : p.Admits e.levels) (hrepetition : e.repetition ≠ 0)
    (hopens : p.OpensNode e) :
    add e.definition e.repetition (.empty p) =
      .error (.orphanLevels e.definition e.repetition (p.sharedSteps e.repetition - 1))
        (.empty p) := by
  refine add_eq_error fun hcontinues => ?_
  have hshared : p.sharedSteps e.repetition ≠ 0 := mt hadmits.sharedSteps_eq_zero_iff.1 hrepetition
  exact hcontinues hopens hshared (parentsAt_empty p _)

end ParentLists

namespace LeafColumn

variable {batchSize n : Nat} {c c' : LeafColumn α} {taken front back : List (LevelEntry α)}
  {e : LevelEntry α} {part : ColumnBatch α}

/-! ## A batch of a column -/

/-- The records of a batch are those that have a root node, and the one that the column starts
inside of. -/
theorem Takes.length_roots (h : Takes c taken part n c')
    (hadmits : ∀ e ∈ c.column.rest, c.pattern.Admits e.levels) :
    (parentsAt part.parents 0).length + (if c.isInside then 1 else 0) = n := by
  obtain ⟨nodes, hall, hparents⟩ := h.nodes
  rw [h.rest_eq] at hadmits
  have hroots := length_roots_of_addAll (fun e he => hadmits e (List.mem_append_left _ he)) hall
  rw [hparents, hroots, ← h.length_eq, isInside]
  cases htaken : taken with
  | nil =>
    have hnil : c.column.rest = [] := by
      by_contra hne
      exact h.ne_nil hne htaken
    rw [hnil]
    rfl
  | cons e entries =>
    have hhead : c.column.rest.head? = some e := by
      rw [h.rest_eq, htaken]
      rfl
    rw [hhead, Option.any_some, length_recordsOf_cons, List.countP_cons]
    by_cases hzero : e.repetition = 0 <;> simp [hzero, Nat.add_comm]

theorem Takes.isInside_eq_false (h : Takes c taken part n c') : c'.isInside = false := by
  rw [isInside]
  cases hhead : c'.column.rest.head? with
  | none => rfl
  | some e =>
    rw [Option.any_some, h.starts e hhead]
    rfl

/-! ## A column that starts inside a record -/

/-- A batch does not end in front of an entry that goes on with a record. -/
theorem not_full (hsize : batchSize ≠ 0) (h : e.repetition ≠ 0) (records : Nat) :
    ((records == 0 || e.repetition == 0) && records == batchSize) = false := by
  rw [beq_eq_false_iff_ne.2 h, Bool.or_false, Bool.and_eq_false_iff]
  rcases Nat.eq_zero_or_pos records with rfl | hpos
  · exact .inr (beq_eq_false_iff_ne.2 hsize.symm)
  · exact .inl (beq_eq_false_iff_ne.2 (Nat.ne_of_gt hpos))

/-- Entries of a record that has no root node are passed over up to the first that opens a node. -/
theorem readFrom_eq_error {p : Pattern} (hsize : batchSize ≠ 0)
    (hrepetition : ∀ e' ∈ front ++ [e], e'.repetition ≠ 0) (hfront : ∀ e' ∈ front, ¬ p.OpensNode e')
    (hadmits : p.Admits e.levels) (hopens : p.OpensNode e) (values : Array α) (records : Nat) :
    readFrom batchSize ⟨.empty p, values, records⟩ (front ++ e :: back) =
      .error (.orphanLevels e.definition e.repetition (p.sharedSteps e.repetition - 1))
        (e :: back) := by
  induction front generalizing values records with
  | nil =>
    have he := hrepetition e (List.mem_singleton_self e)
    rw [List.nil_append, readFrom]
    simp only [not_full hsize he, Bool.false_eq_true, if_false]
    rw [add_empty_eq_error hadmits he hopens]
  | cons e' front ih =>
    rw [List.cons_append, List.forall_mem_cons] at hrepetition
    rw [List.forall_mem_cons] at hfront
    have hkept : add e'.definition e'.repetition (.empty p) = .ok () (.empty p) :=
      add_eq_self hfront.1
    rw [List.cons_append, readFrom]
    simp only [not_full hsize hrepetition.1, Bool.false_eq_true, if_false, hkept]
    exact ih hrepetition.2 hfront.2 _ _

theorem IsOrphan.readRecords_eq_error (h : c.IsOrphan front e back) (hsize : batchSize ≠ 0)
    (hadmits : ∀ e ∈ c.column.rest, c.pattern.Admits e.levels) :
    readRecords batchSize c =
      .error (.corrupt (.orphanLevels e.definition e.repetition
          (c.pattern.sharedSteps e.repetition - 1)))
        { c with column := { c.column with rest := e :: back } } := by
  rw [h.rest_eq] at hadmits
  have he := hadmits e (List.mem_append_right _ List.mem_cons_self)
  rw [readRecords, h.rest_eq,
    readFrom_eq_error hsize h.repetition_ne h.front_opens he h.opens]

end LeafColumn

namespace BatchReader

open LeafColumn

variable {batchSize : Nat} {r r' : BatchReader α} {columns : List (LeafColumn α)}
  {batch : RecordBatch α}

/-- A batch has one root node per record. Of columns with levels that their patterns have, whatever
reads have come before, each column of a batch that is read has as many root nodes as the batch has
records, less one if the column has started inside a record; behind the batch it does not. A column
that starts inside a record is refused at the first entry of that record that opens a node, if there
is one. -/
theorem one_root_per_record (h : ofColumns columns batchSize = .ok r)
    (hadmits : ∀ c ∈ columns, ∀ e ∈ c.column.rest, c.pattern.Admits e.levels) (n : Nat) :
    (∀ batch r', readBatch (r.afterReads n) = .ok batch r' →
      batch.columns.length = columns.length ∧
      ∀ (i : Nat) (c : LeafColumn α), (r.afterReads n).columns[i]? = some c →
        ∃ part c', batch.columns[i]? = some part ∧ r'.columns[i]? = some c' ∧
          (parentsAt part.parents 0).length + (if c.isInside then 1 else 0) = batch.recordCount ∧
          c'.isInside = false) ∧
    ∀ c ∈ (r.afterReads n).columns, ∀ front e back, c.IsOrphan front e back →
      readRecords batchSize c = .error (.corrupt (.orphanLevels e.definition e.repetition
          (c.pattern.sharedSteps e.repetition - 1)))
        { c with column := { c.column with rest := e :: back } } ∧
      ∀ batch r', readBatch (r.afterReads n) ≠ .ok batch r' := by
  obtain ⟨hsize, -, rfl⟩ := of_ofColumns h
  have hbatchSize : (afterReads ⟨columns, batchSize, 0⟩ n).batchSize = batchSize :=
    batchSize_afterReads _ n
  have hfollows := forall₂_follows_afterReads ⟨columns, batchSize, 0⟩ n
  generalize afterReads ⟨columns, batchSize, 0⟩ n = r at hbatchSize hfollows ⊢
  -- what is left of a column has levels of its pattern, too
  have hleft : ∀ c ∈ r.columns, ∀ e ∈ c.column.rest, c.pattern.Admits e.levels := by
    intro c hc e he
    obtain ⟨c₀, hc₀, hfollow⟩ := exists_mem_of_forall₂ hfollows hc
    rw [hfollow.pattern_eq]
    exact hadmits c₀ hc₀ e (hfollow.suffix.subset he)
  constructor
  · intro batch r' hread
    refine ⟨(length_of_readBatch hread).trans hfollows.length_eq.symm, fun i c hc => ?_⟩
    obtain ⟨part, taken, c', hpart, hc', htakes⟩ :=
      exists_takes_of_readBatch (hbatchSize ▸ hsize) hread hc
    exact ⟨part, c', hpart, hc', htakes.length_roots (hleft c (List.mem_of_getElem? hc)),
      htakes.isInside_eq_false⟩
  · intro c hc front e back horphan
    have herror := horphan.readRecords_eq_error hsize (hleft c hc)
    refine ⟨herror, fun batch r' hread => ?_⟩
    obtain ⟨i, hi⟩ := List.mem_iff_getElem?.1 hc
    obtain ⟨part, c', hok, -⟩ := exists_readRecords_of_readBatch hread hi
    rw [hbatchSize, herror] at hok
    cases hok

/-- The second record of a list column; and a column that starts inside a record, whose second entry
there opens a node. -/
theorem one_root_per_record_lists :
    (∃ r batch r', ofColumns [⟨.ofEntries [⟨1, 0, some 'a'⟩, ⟨1, 1, some 'b'⟩, ⟨0, 0, none⟩],
          ⟨[.repeated, .repeated], rfl, by decide⟩⟩] 1 = .ok r ∧
        readBatch (r.afterReads 1) = .ok batch r' ∧ batch.recordCount = 1 ∧
        ∃ part, batch.columns = [part] ∧ (parentsAt part.parents 0).length = 1) ∧
    ∃ r, ofColumns [⟨.ofEntries [⟨0, 1, none⟩, ⟨1, 1, some 'a'⟩],
        ⟨[.repeated, .repeated], rfl, by decide⟩⟩] 1 = .ok r ∧
      ∀ batch r', readBatch (r.afterReads 0) ≠ .ok batch r' := by
  constructor
  · have hreader : ofColumns [⟨.ofEntries [⟨1, 0, some 'a'⟩, ⟨1, 1, some 'b'⟩, ⟨0, 0, none⟩],
        ⟨[.repeated, .repeated], rfl, by decide⟩⟩] 1 = .ok ⟨_, 1, 0⟩ := rfl
    obtain ⟨hbatches, -⟩ := one_root_per_record hreader
      (List.forall_mem_singleton.2 (by decide)) 1
    obtain ⟨-, hcolumns⟩ := hbatches _ _ rfl
    obtain ⟨part, c', hpart, -, hroots, -⟩ := hcolumns 0 _ rfl
    cases hpart
    exact ⟨_, _, _, hreader, rfl, rfl, _, rfl, hroots⟩
  · have hreader : ofColumns [⟨.ofEntries [⟨0, 1, none⟩, ⟨1, 1, some 'a'⟩],
        ⟨[.repeated, .repeated], rfl, by decide⟩⟩] 1 = .ok ⟨_, 1, 0⟩ := rfl
    obtain ⟨-, horphans⟩ := one_root_per_record hreader
      (List.forall_mem_singleton.2 (by decide)) 0
    refine ⟨_, hreader, ?_⟩
    exact (horphans _ (List.mem_singleton_self _) [⟨0, 1, none⟩] ⟨1, 1, some 'a'⟩ []
      ⟨rfl, by decide, by decide, by decide⟩).2

/-- So a column that starts inside a record need not be refused: where the record has no node of its
own, it is counted and has no root node. -/
theorem not_one_root_per_record :
    ¬ ∀ (columns : List (LeafColumn Nat)) (batchSize : Nat) (r : BatchReader Nat),
      ofColumns columns batchSize = .ok r →
      (∀ c ∈ columns, ∀ e ∈ c.column.rest, c.pattern.Admits e.levels) →
      ∀ n batch r', readBatch (r.afterReads n) = .ok batch r' →
        ∀ part ∈ batch.columns, (parentsAt part.parents 0).length = batch.recordCount := by
  intro h
  have hroots := h [⟨.ofEntries [⟨0, 1, none⟩], ⟨[.repeated, .repeated], rfl, by decide⟩⟩] 1 _ rfl
    (List.forall_mem_singleton.2 (by decide)) 0 ⟨[⟨#[#[], #[]], []⟩], 1, true⟩ _ rfl _
    (List.mem_singleton_self _)
  cases hroots

end BatchReader

end WireColumns
