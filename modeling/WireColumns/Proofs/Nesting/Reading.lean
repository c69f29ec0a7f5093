import WireColumns.Proofs.Nesting.LockStep
import WireColumns.Proofs.Results

/-! # What a batch takes

A batch that is read takes whole records off the front of each column and brings their nodes and
values (`Takes`, `BatchReader.exists_takes_of_readBatch`). Reading may fail, and then some columns
have been read further than others; but whatever has been read, and whether or not it has failed, a
column has the pattern that it had, and what is left of it is an end of what it was
(`BatchReader.forall₂_follows_afterReads`). -/

namespace WireColumns

open ParentLists

variable {α : Type}

namespace LeafColumn

variable {batchSize n : Nat} {c c' c'' : LeafColumn α} {part : ColumnBatch α}

/-- The column `c'` is what is left of `c`. -/
structure Follows (c c' : LeafColumn α) : Prop where
  pattern_eq : c'.pattern = c.pattern
  suffix : c'.column.rest <:+ c.column.rest

theorem Follows.refl (c : LeafColumn α) : Follows c c := ⟨rfl, List.suffix_refl _⟩

theorem Follows.trans (h : Follows c c') (h' : Follows c' c'') : Follows c c'' :=
  ⟨h'.pattern_eq.trans h.pattern_eq, h'.suffix.trans h.suffix⟩

/-- A batch takes `taken` off the front of the column `c`, which is `n` records and leaves `c'`, and
brings their nodes and values. -/
structure Takes (c : LeafColumn α) (taken : List (LevelEntry α)) (part : ColumnBatch α) (n : Nat)
    (c' : LeafColumn α) : Prop where
  pattern_eq : c'.pattern = c.pattern
  rest_eq : c.column.rest = taken ++ c'.column.rest
  length_eq : (recordsOf taken).length = n
  nodes : ∃ nodes, addAll (taken.map LevelEntry.levels) (.empty c.pattern) = .ok () nodes ∧
    part.parents = nodes.lists
  values_eq : part.values = taken.filterMap LevelEntry.value?
  ne_nil : c.column.rest ≠ [] → taken ≠ []
  starts : ∀ e ∈ c'.column.rest.head?, e.repetition = 0

/-! ## One column -/

theorem takes_of_readRecords (hsize : batchSize ≠ 0)
    (h : readRecords batchSize c = .ok (part, n) c') : ∃ taken, Takes c taken part n c' := by
  obtain ⟨⟨size, entries⟩, p⟩ := c
  rw [readRecords] at h
  cases entries with
  | nil =>
    cases h
    exact ⟨[], rfl, rfl, rfl, ⟨_, rfl, rfl⟩, rfl, id, by simp⟩
  | cons e entries =>
    dsimp only at h
    cases hfrom : readFrom batchSize ⟨.empty p, #[], 0⟩ (e :: entries) with
    | error cause rest =>
      rw [hfrom] at h
      cases h
    | ok progress rest =>
      rw [hfrom] at h
      cases h
      obtain ⟨taken, htaken, hall, hvalues, hrest⟩ := readFrom_start hsize hfrom
      obtain ⟨taken', hrecords, hlength, -⟩ := readFrom_start_records hsize hfrom
      -- both say what is in front of the same rest
      have htaken' : e :: entries = taken' ++ rest := by
        rw [← flatten_recordsOf (e :: entries), hrecords, List.flatten_append, flatten_recordsOf,
          flatten_recordsOf]
      obtain rfl : e :: taken = taken' := List.append_cancel_right (htaken.symm.trans htaken')
      exact ⟨e :: taken, rfl, htaken, hlength, ⟨_, hall, rfl⟩, hvalues,
        fun _ => List.cons_ne_nil _ _, hrest⟩

theorem suffix_readFrom (batchSize : Nat) (progress : Progress α)
    (entries : List (LevelEntry α)) :
    finalState (readFrom batchSize progress entries) <:+ entries := by
  induction entries generalizing progress with
  | nil => exact List.suffix_refl _
  | cons e entries ih =>
    rw [readFrom]
    dsimp only
    split
    next => exact List.suffix_refl _
    next =>
      split
      next => exact List.suffix_refl _
      next => exact (ih _).trans (List.suffix_cons e entries)

theorem follows_readRecords (batchSize : Nat) (c : LeafColumn α) :
    Follows c (finalState (readRecords batchSize c)) := by
  have hsuffix := suffix_readFrom batchSize ⟨.empty c.pattern, #[], 0⟩ c.column.rest
  rw [readRecords]
  cases hfrom : readFrom batchSize ⟨.empty c.pattern, #[], 0⟩ c.column.rest with
  | ok progress rest | error cause rest =>
    rw [hfrom] at hsuffix
    exact ⟨rfl, hsuffix⟩

end LeafColumn

namespace BatchReader

open LeafColumn

variable {batchSize i n : Nat} {r r' : BatchReader α} {c : LeafColumn α}
  {columns columns' : List (LeafColumn α)} {batch : RecordBatch α}

/-! ## A batch that is read -/

theorem length_of_readColumns {index : Nat} {expected? : Option Nat}
    {parts : List (ColumnBatch α × Nat)}
    (h : readColumns batchSize index expected? columns = (columns', .ok parts)) :
    parts.length = columns.length := by
  induction columns generalizing index expected? columns' parts with
  | nil =>
    cases h
    rfl
  | cons c columns ih =>
    obtain ⟨part, k, c', rest, more, -, -, hmore, -, rfl⟩ := readColumns_cons_eq_ok h
    rw [List.length_cons, List.length_cons, ih hmore]

/-- What is read of a column among others that have `n` records. -/
theorem exists_readRecords_of_readColumns {index : Nat} {parts : List (ColumnBatch α × Nat)}
    (h : readColumns batchSize index (some n) columns = (columns', .ok parts))
    (hc : columns[i]? = some c) :
    ∃ part c', readRecords batchSize c = .ok (part, n) c' ∧ parts[i]? = some (part, n) ∧
      columns'[i]? = some c' := by
  induction columns generalizing index columns' parts i with
  | nil => cases hc
  | cons head columns ih =>
    obtain ⟨part, k, c', rest, more, hread, hexpected, hmore, rfl, rfl⟩ := readColumns_cons_eq_ok h
    obtain rfl : k = n := hexpected n rfl
    cases i with
    | zero =>
      obtain rfl := Option.some.inj hc
      exact ⟨part, c', hread, rfl, rfl⟩
    | succ i =>
      obtain ⟨part', c'', hread', hpart, hc'⟩ := ih (i := i) hmore hc
      exact ⟨part', c'', hread', hpart, hc'⟩

theorem exists_readRecords_of_readBatch (h : readBatch r = .ok batch r')
    (hc : r.columns[i]? = some c) :
    ∃ part c', readRecords r.batchSize c = .ok (part, batch.recordCount) c' ∧
      batch.columns[i]? = some part ∧ r'.columns[i]? = some c' := by
  obtain ⟨columns', parts, hcolumns, rfl, rfl⟩ := of_readBatch h
  cases hr : r.columns with
  | nil =>
    rw [hr] at hc
    cases hc
  | cons head columns =>
    rw [hr] at hc hcolumns
    obtain ⟨part, k, c', rest, more, hread, -, hmore, rfl, rfl⟩ := readColumns_cons_eq_ok hcolumns
    -- the first column says how many records the others must have
    cases i with
    | zero =>
      obtain rfl := Option.some.inj hc
      exact ⟨part, c', hread, rfl, rfl⟩
    | succ i =>
      obtain ⟨part', c'', hread', hpart, hc'⟩ := exists_readRecords_of_readColumns hmore hc
      refine ⟨part', c'', hread', ?_, hc'⟩
      simpa using ⟨_, hpart⟩

/-- A batch takes as many records of every column as it says it has. -/
theorem exists_takes_of_readBatch (hsize : r.batchSize ≠ 0) (h : readBatch r = .ok batch r')
    (hc : r.columns[i]? = some c) :
    ∃ part taken c', batch.columns[i]? = some part ∧ r'.columns[i]? = some c' ∧
      Takes c taken part batch.recordCount c' := by
  obtain ⟨part, c', hread, hpart, hc'⟩ := exists_readRecords_of_readBatch h hc
  obtain ⟨taken, htakes⟩ := takes_of_readRecords hsize hread
  exact ⟨part, taken, c', hpart, hc', htakes⟩

theorem length_of_readBatch (h : readBatch r = .ok batch r') :
    batch.columns.length = r.columns.length := by
  obtain ⟨columns', parts, hcolumns, -, rfl⟩ := of_readBatch h
  rw [List.length_map, length_of_readColumns hcolumns]

/-! ## Any number of reads -/

theorem forall₂_follows_readColumns (batchSize index : Nat) (expected? : Option Nat)
    (columns : List (LeafColumn α)) :
    List.Forall₂ Follows columns (readColumns batchSize index expected? columns).1 := by
  have hself := fun columns : List (LeafColumn α) =>
    List.forall₂_same.2 fun c (_ : c ∈ columns) => Follows.refl c
  induction columns generalizing index expected? with
  | nil => exact .nil
  | cons c columns ih =>
    have hfollows := follows_readRecords batchSize c
    rw [readColumns]
    cases hread : readRecords batchSize c with
    | error e c' =>
      rw [hread] at hfollows
      exact .cons hfollows (hself columns)
    | ok part c' =>
      obtain ⟨part, n⟩ := part
      rw [hread] at hfollows
      dsimp only
      split
      next => exact .cons hfollows (hself columns)
      next => exact .cons hfollows (ih ..)

theorem finalState_readBatch (r : BatchReader α) :
    (finalState (readBatch r)).batchSize = r.batchSize ∧
      List.Forall₂ Follows r.columns (finalState (readBatch r)).columns := by
  have hfollows := forall₂_follows_readColumns r.batchSize 0 none r.columns
  rw [readBatch]
  dsimp only
  split
  next => exact ⟨rfl, hfollows⟩
  next => exact ⟨rfl, hfollows⟩

/-- The reader after `n` reads, of which any may have failed. -/
def afterReads (r : BatchReader α) : Nat → BatchReader α
  | 0 => r
  | n + 1 => finalState (readBatch (r.afterReads n))

theorem batchSize_afterReads (r : BatchReader α) (n : Nat) :
    (r.afterReads n).batchSize = r.batchSize := by
  induction n with
  | zero => rfl
  | succ n ih => exact (finalState_readBatch _).1.trans ih

/-- After any reads each column is what is left of the one that was there. -/
theorem forall₂_follows_afterReads (r : BatchReader α) (n : Nat) :
    List.Forall₂ Follows r.columns (r.afterReads n).columns := by
  induction n with
  | zero => exact List.forall₂_same.2 fun c _ => .refl c
  | succ n ih =>
    have hstep := (finalState_readBatch (r.afterReads n)).2
    exact forall₂_trans (T := Follows) (fun h h' => h.trans h') ih hstep

end BatchReader

end WireColumns
