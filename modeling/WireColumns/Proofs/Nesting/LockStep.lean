import Mathlib.Data.List.Forall2
import Mathlib.Data.List.SplitBy
import WireColumns.Proofs.Lists
import WireColumns.Proofs.Nesting.Batches

/-! # Columns in lock step

The columns of a batch reader are read one after the other, and only the numbers of records of a
batch are compared. That is enough: whatever batches have been read, every column stands behind the
same records (`BatchReader.columns_in_lock_step`). A column is behind its first `n` records
(`LeafColumn.Behind`) if the records left of it are all but these; one batch moves every column by
the same number of records (`BatchReader.readBatch_eq_ok`), and so does any number of batches
(`BatchReader.Run`). -/

namespace WireColumns

variable {α : Type}

/-- Cuts entries into records. The first entry opens a record, and so does every later one with
repetition level 0. -/
def recordsOf (entries : List (LevelEntry α)) : List (List (LevelEntry α)) :=
  entries.splitBy fun _ next => next.repetition != 0

theorem flatten_recordsOf (entries : List (LevelEntry α)) : (recordsOf entries).flatten = entries :=
  List.flatten_splitBy ..

theorem recordsOf_eq_nil_iff {entries : List (LevelEntry α)} :
    recordsOf entries = [] ↔ entries = [] := List.splitBy_eq_nil

theorem recordsOf_append (entries : List (LevelEntry α)) {rest : List (LevelEntry α)}
    (h : ∀ e ∈ rest.head?, e.repetition = 0) :
    recordsOf (entries ++ rest) = recordsOf entries ++ recordsOf rest :=
  List.splitBy_append fun _ _ e he => by simp [h e he]

theorem length_splitByLoop (entries : List (LevelEntry α)) (e : LevelEntry α)
    (record : List (LevelEntry α)) (records : List (List (LevelEntry α))) :
    (List.splitBy.loop (fun _ next => next.repetition != 0) entries e record records).length =
      records.length + 1 + entries.countP (·.repetition == 0) := by
  induction entries generalizing e record records with
  | nil => simp [List.splitBy.loop]
  | cons next entries ih =>
    rw [List.splitBy.loop, List.countP_cons]
    by_cases hnext : next.repetition = 0
    · simp only [hnext, bne_self_eq_false, ih, List.length_cons, BEq.rfl, if_true]
      omega
    · have hne : (next.repetition != 0) = true := by simpa using hnext
      simp only [hne, ih, beq_eq_false_iff_ne.2 hnext]
      rfl

theorem length_recordsOf_cons (e : LevelEntry α) (entries : List (LevelEntry α)) :
    (recordsOf (e :: entries)).length = 1 + entries.countP (·.repetition == 0) :=
  (length_splitByLoop entries e [] []).trans (by rw [List.length_nil, Nat.zero_add])

theorem length_recordsOf_le (entries : List (LevelEntry α)) :
    (recordsOf entries).length ≤ entries.length := by
  cases entries with
  | nil => exact Nat.le_refl 0
  | cons e entries =>
    rw [length_recordsOf_cons, List.length_cons, Nat.add_comm]
    exact Nat.succ_le_succ List.countP_le_length

namespace LeafColumn

variable {batchSize n k : Nat} {entries rest : List (LevelEntry α)}
variable {progress progress' : Progress α} {c c' c'' : LeafColumn α}

/-! ## One column -/

/-- Behind its first entry, a batch has one more record for every entry that opens one. It ends at
the end of the column, or in front of a record when it has all it may have. -/
theorem readFrom_records (hpos : progress.records ≠ 0) (hle : progress.records ≤ batchSize)
    (h : readFrom batchSize progress entries = .ok progress' rest) :
    ∃ taken, entries = taken ++ rest ∧
      progress'.records = progress.records + taken.countP (·.repetition == 0) ∧
      progress'.records ≤ batchSize ∧
      (rest ≠ [] → progress'.records = batchSize) ∧ ∀ e ∈ rest.head?, e.repetition = 0 := by
  induction entries generalizing progress with
  | nil =>
    cases h
    exact ⟨[], rfl, rfl, hle, fun hne => absurd rfl hne, by simp⟩
  | cons e entries ih =>
    obtain ⟨nodes, values, records⟩ := progress
    have hopens : (records == 0 || e.repetition == 0) = (e.repetition == 0) := by
      rw [beq_eq_false_iff_ne.2 hpos, Bool.false_or]
    rw [readFrom] at h
    simp only [hopens] at h
    split at h
    next hfull =>
      cases h
      obtain ⟨hzero, hfull⟩ := Bool.and_eq_true_iff.1 hfull
      refine ⟨[], rfl, rfl, hle, fun _ => eq_of_beq hfull, fun e' he' => ?_⟩
      obtain rfl : e = e' := Option.some.inj he'
      exact eq_of_beq hzero
    next hmore =>
      split at h
      next => cases h
      next nodes' _ =>
        dsimp only at hle hpos
        -- an entry that opens a record is taken only if the batch has room for one more
        have hroom : (if (e.repetition == 0) = true then records + 1 else records) ≤ batchSize := by
          split
          next hzero =>
            have hne : records ≠ batchSize := by simpa [hzero] using hmore
            omega
          next => exact hle
        obtain ⟨taken, rfl, hrecords, hle', hrest⟩ := ih (by dsimp only; split <;> omega) hroom h
        refine ⟨e :: taken, rfl, ?_, hle', hrest⟩
        rw [hrecords, List.countP_cons]
        dsimp only
        split <;> omega

/-- A batch takes whole records off the front of a column. -/
theorem readFrom_start_records (hsize : batchSize ≠ 0) {nodes : ParentLists} {values : Array α}
    (h : readFrom batchSize ⟨nodes, values, 0⟩ entries = .ok progress' rest) :
    ∃ taken, recordsOf entries = recordsOf taken ++ recordsOf rest ∧
      (recordsOf taken).length = progress'.records ∧ progress'.records ≤ batchSize ∧
      (progress'.records < batchSize → rest = []) := by
  cases entries with
  | nil =>
    cases h
    exact ⟨[], rfl, rfl, Nat.zero_le _, fun _ => rfl⟩
  | cons e entries =>
    have hroom : (((0 : Nat) == 0 || e.repetition == 0) && (0 : Nat) == batchSize) = false := by
      simpa using hsize.symm
    rw [readFrom] at h
    simp only [hroom] at h
    rw [if_neg Bool.false_ne_true] at h
    cases hadd : ParentLists.add e.definition e.repetition nodes with
    | error _ _ =>
      rw [hadd] at h
      cases h
    | ok _ nodes' =>
      rw [hadd] at h
      obtain ⟨taken, rfl, hrecords, hle, hfull, hrest⟩ :=
        readFrom_records (Nat.succ_ne_zero 0) (Nat.one_le_iff_ne_zero.2 hsize) h
      refine ⟨e :: taken, recordsOf_append (e :: taken) hrest, ?_, hle, fun hlt => ?_⟩
      · rw [length_recordsOf_cons, hrecords]
        rfl
      · by_contra hne
        exact Nat.ne_of_lt hlt (hfull hne)

/-- The column `c'` is `c` behind its first `n` records. -/
structure Behind (n : Nat) (c c' : LeafColumn α) : Prop where
  pattern_eq : c'.pattern = c.pattern
  records_eq : recordsOf c'.column.rest = (recordsOf c.column.rest).drop n
  le_length : n ≤ (recordsOf c.column.rest).length

theorem behind_zero (c : LeafColumn α) : Behind 0 c c := ⟨rfl, rfl, Nat.zero_le _⟩

theorem Behind.trans (h : Behind n c c') (h' : Behind k c' c'') : Behind (n + k) c c'' := by
  refine ⟨h'.pattern_eq.trans h.pattern_eq, ?_, ?_⟩
  · rw [h'.records_eq, h.records_eq, List.drop_drop]
  · have hle := h'.le_length
    rw [h.records_eq, List.length_drop] at hle
    have := h.le_length
    omega

/-- The entries in front are those of the first `n` records. -/
theorem Behind.rest_eq (h : Behind n c c') :
    c.column.rest = ((recordsOf c.column.rest).take n).flatten ++ c'.column.rest := by
  rw [← flatten_recordsOf c'.column.rest, h.records_eq, ← List.flatten_append,
    List.take_append_drop, flatten_recordsOf]

theorem isAtEnd_iff : c.isAtEnd = true ↔ c.column.rest = [] := List.isEmpty_iff

theorem Behind.isAtEnd (h : Behind n c c') (hend : c.isAtEnd = true) : c'.isAtEnd = true := by
  have hrest := h.rest_eq
  rw [isAtEnd_iff.1 hend, eq_comm, List.append_eq_nil_iff] at hrest
  exact isAtEnd_iff.2 hrest.2

/-- At its end a column is behind all its records. -/
theorem Behind.length_eq (h : Behind n c c') (hend : c'.isAtEnd = true) :
    (recordsOf c.column.rest).length = n := by
  have hdrop := h.records_eq
  rw [isAtEnd_iff.1 hend, recordsOf_eq_nil_iff.2 rfl] at hdrop
  exact Nat.le_antisymm (List.drop_eq_nil_iff.1 hdrop.symm) h.le_length

/-- A column that is not at its end has records left. -/
theorem Behind.lt_length (h : Behind n c c') (hend : c'.isAtEnd = false) :
    n < (recordsOf c.column.rest).length := by
  refine Nat.lt_of_le_of_ne h.le_length fun heq => ?_
  have hdrop := h.records_eq
  rw [heq, List.drop_length, recordsOf_eq_nil_iff, ← isAtEnd_iff, hend] at hdrop
  exact Bool.false_ne_true hdrop

/-- What a batch does to a column: it moves it behind `n` records, which are all it has left if they
are fewer than a batch may have. -/
structure Moves (batchSize n : Nat) (c c' : LeafColumn α) : Prop where
  behind : Behind n c c'
  le_batchSize : n ≤ batchSize
  atEnd : n < batchSize → c'.isAtEnd = true

theorem readRecords_eq_ok (hsize : batchSize ≠ 0) {batch : ColumnBatch α}
    (h : readRecords batchSize c = .ok (batch, n) c') : Moves batchSize n c c' := by
  rw [readRecords] at h
  split at h
  next progress rest hfrom =>
    cases h
    obtain ⟨taken, htaken, hlength, hle, hend⟩ := readFrom_start_records hsize hfrom
    refine ⟨⟨rfl, ?_, ?_⟩, hle, fun hlt => isAtEnd_iff.2 (hend hlt)⟩
    · rw [htaken, ← hlength, List.drop_left]
    · rw [htaken, List.length_append]
      omega
  next => cases h

end LeafColumn

namespace BatchReader

open LeafColumn

variable {batchSize n : Nat} {r r' r'' : BatchReader α} {c : LeafColumn α}
variable {columns columns' : List (LeafColumn α)}
variable {batch : RecordBatch α} {batches : List (RecordBatch α)}

/-! ## One batch -/

/-- What is read of the first column, and of the others, which must have as many records. -/
theorem readColumns_cons_eq_ok {index : Nat} {expected? : Option Nat}
    {parts : List (ColumnBatch α × Nat)}
    (h : readColumns batchSize index expected? (c :: columns) = (columns', .ok parts)) :
    ∃ part n c' rest more, readRecords batchSize c = .ok (part, n) c' ∧
      (∀ m ∈ expected?, n = m) ∧
      readColumns batchSize (index + 1) (some n) columns = (rest, .ok more) ∧
      columns' = c' :: rest ∧ parts = (part, n) :: more := by
  rw [readColumns] at h
  split at h
  next => cases h
  next part n c' hread =>
    dsimp only at h
    split at h
    next => cases h
    next heq =>
      have heq : n = expected?.getD n := Decidable.not_not.1 heq
      rw [← heq] at h
      cases hmore : readColumns batchSize (index + 1) (some n) columns with
      | mk rest batches =>
        rw [hmore] at h
        cases batches with
        | error e => cases h
        | ok more =>
          cases h
          refine ⟨part, n, c', rest, more, hread, ?_, hmore, rfl, rfl⟩
          rintro m rfl
          exact heq

theorem forall₂_moves (hsize : batchSize ≠ 0) {index : Nat} {parts : List (ColumnBatch α × Nat)}
    (h : readColumns batchSize index (some n) columns = (columns', .ok parts)) :
    List.Forall₂ (Moves batchSize n) columns columns' := by
  induction columns generalizing index columns' parts with
  | nil =>
    cases h
    exact .nil
  | cons c columns ih =>
    obtain ⟨part, k, c', rest, more, hread, hexpected, hmore, rfl, -⟩ := readColumns_cons_eq_ok h
    obtain rfl : k = n := hexpected n rfl
    exact .cons (readRecords_eq_ok hsize hread) (ih hmore)

/-- What a batch has of what is read of the columns. -/
theorem of_readBatch (h : readBatch r = .ok batch r') :
    ∃ columns parts, readColumns r.batchSize 0 none r.columns = (columns, .ok parts) ∧
      r' = ⟨columns, r.batchSize, r.recordsRead + batch.recordCount⟩ ∧
      batch = ⟨parts.map Prod.fst, (parts.head?.map Prod.snd).getD 0,
        columns.all LeafColumn.isAtEnd⟩ := by
  rw [readBatch] at h
  cases hcolumns : readColumns r.batchSize 0 none r.columns with
  | mk columns parts =>
    rw [hcolumns] at h
    cases parts with
    | error e => cases h
    | ok parts =>
      cases h
      exact ⟨columns, parts, rfl, rfl, rfl⟩

/-- A batch moves every column behind the records that it says it has. -/
theorem readBatch_eq_ok (hsize : r.batchSize ≠ 0) (hne : r.columns ≠ [])
    (h : readBatch r = .ok batch r') :
    List.Forall₂ (Moves r.batchSize batch.recordCount) r.columns r'.columns ∧
      r'.batchSize = r.batchSize ∧ r'.recordsRead = r.recordsRead + batch.recordCount ∧
      batch.isLast = r'.isAtEnd := by
  obtain ⟨columns', parts, hcolumns, rfl, rfl⟩ := of_readBatch h
  obtain ⟨c, columns, hr⟩ := List.exists_cons_of_ne_nil hne
  rw [hr] at hcolumns ⊢
  obtain ⟨part, n, c', rest, more, hread, -, hmore, rfl, rfl⟩ := readColumns_cons_eq_ok hcolumns
  exact ⟨.cons (readRecords_eq_ok hsize hread) (forall₂_moves hsize hmore), rfl, rfl, rfl⟩

/-! ## Any number of batches -/

/-- Batches that are read one after the other. -/
inductive Run : BatchReader α → List (RecordBatch α) → BatchReader α → Prop
  | nil (r : BatchReader α) : Run r [] r
  | cons {r r' r'' : BatchReader α} {batch : RecordBatch α} {batches : List (RecordBatch α)} :
    readBatch r = .ok batch r' → Run r' batches r'' → Run r (batch :: batches) r''

theorem ofColumns_eq_ok (hsize : batchSize ≠ 0) (hne : columns ≠ []) :
    ofColumns columns batchSize = .ok ⟨columns, batchSize, 0⟩ := by
  rw [ofColumns, if_neg hsize, if_neg hne]

theorem of_ofColumns (h : ofColumns columns batchSize = .ok r) :
    batchSize ≠ 0 ∧ columns ≠ [] ∧ r = ⟨columns, batchSize, 0⟩ := by
  rw [ofColumns] at h
  split at h
  next => cases h
  next hsize =>
    split at h
    next => cases h
    next hne =>
      cases h
      exact ⟨hsize, hne, rfl⟩

/-- A reader of the given columns, each of which is behind as many records as have been read. -/
structure InStep (columns : List (LeafColumn α)) (batchSize : Nat) (r : BatchReader α) : Prop where
  behind : List.Forall₂ (Behind r.recordsRead) columns r.columns
  batchSize_eq : r.batchSize = batchSize
  batchSize_ne_zero : batchSize ≠ 0
  columns_ne_nil : columns ≠ []

theorem inStep_of_ofColumns (h : ofColumns columns batchSize = .ok r) :
    InStep columns batchSize r ∧ r.recordsRead = 0 := by
  obtain ⟨hsize, hne, rfl⟩ := of_ofColumns h
  exact ⟨⟨List.forall₂_same.2 fun c _ => behind_zero c, rfl, hsize, hne⟩, rfl⟩

theorem isAtEnd_iff : r.isAtEnd = true ↔ ∀ c ∈ r.columns, c.isAtEnd = true := List.all_eq_true

/-- The next batch of a reader in step. -/
theorem InStep.readBatch (h : InStep columns batchSize r) (hread : readBatch r = .ok batch r') :
    InStep columns batchSize r' ∧ r'.recordsRead = r.recordsRead + batch.recordCount ∧
      batch.recordCount ≤ batchSize ∧ batch.isLast = r'.isAtEnd ∧
      (batch.recordCount < batchSize → r'.isAtEnd = true) ∧
      (r.isAtEnd = true → r'.isAtEnd = true) := by
  obtain ⟨hbehind, rfl, hsize, hcolumns⟩ := h
  have hne : r.columns ≠ [] := by
    rintro hnil
    rw [hnil, List.forall₂_nil_right_iff] at hbehind
    exact hcolumns hbehind
  obtain ⟨hmoves, hsize', hcount, hlast⟩ := readBatch_eq_ok hsize hne hread
  have hbehind' := forall₂_trans (fun hbehind hmoves => hbehind.trans hmoves.behind) hbehind hmoves
  refine ⟨⟨hcount ▸ hbehind', hsize', hsize, hcolumns⟩, hcount, ?_, hlast,
    fun hlt => isAtEnd_iff.2 fun c hc => ?_, fun hend => isAtEnd_iff.2 fun c hc => ?_⟩
  · generalize r.columns = cs, r'.columns = cs' at hmoves hne
    cases hmoves with
    | nil => exact absurd rfl hne
    | cons hmoves _ => exact hmoves.le_batchSize
  · obtain ⟨c₀, -, hmoves⟩ := exists_mem_of_forall₂ hmoves hc
    exact hmoves.atEnd hlt
  · obtain ⟨c₀, hc₀, hmoves⟩ := exists_mem_of_forall₂ hmoves hc
    exact hmoves.behind.isAtEnd (isAtEnd_iff.1 hend c₀ hc₀)

/-- Behind any number of batches a reader is still in step; as long as it is not at its end, every
batch has been a full one. -/
theorem InStep.run (h : InStep columns batchSize r) (hrun : Run r batches r') :
    InStep columns batchSize r' ∧ (r'.isAtEnd = false → r.isAtEnd = false ∧
      r'.recordsRead = r.recordsRead + batches.length * batchSize) := by
  induction hrun with
  | nil r => exact ⟨h, fun hend => ⟨hend, by simp⟩⟩
  | @cons r r₁ r' batch batches hread _ ih =>
    obtain ⟨h₁, hcount, hle, -, hshort, hstays⟩ := h.readBatch hread
    obtain ⟨h', hfull⟩ := ih h₁
    refine ⟨h', fun hend => ?_⟩
    obtain ⟨hend₁, hcount'⟩ := hfull hend
    -- a batch that is not full comes to the end of all columns, and no batch leads back from there
    have hbatch : batch.recordCount = batchSize := by
      refine Nat.le_antisymm hle (Nat.not_lt.1 fun hlt => ?_)
      exact Bool.false_ne_true (hend₁.symm.trans (hshort hlt))
    refine ⟨Bool.eq_false_iff.2 fun hr => Bool.false_ne_true (hend₁.symm.trans (hstays hr)), ?_⟩
    rw [hcount', hcount, hbatch, List.length_cons, Nat.succ_mul]
    omega

/-! ## Reading to the end -/

/-- What is read until the end, or until the fuel is used up. -/
theorem run_of_readAllFrom {seen : Array (RecordBatch α)} {fuel : Nat}
    (h : readAllFrom seen fuel r = .ok batches r') :
    ∃ more, batches = seen.toList ++ more ∧ Run r more r' ∧
      (r'.isAtEnd = false → more.length = fuel) := by
  induction fuel generalizing seen r with
  | zero =>
    cases h
    exact ⟨[], (List.append_nil _).symm, .nil _, fun _ => rfl⟩
  | succ fuel ih =>
    rw [readAllFrom_succ] at h
    split at h
    next hend =>
      cases h
      exact ⟨[], (List.append_nil _).symm, .nil _, fun hne => by simp [hend] at hne⟩
    next =>
      cases hbatch : readBatch r with
      | error _ _ =>
        rw [hbatch] at h
        cases h
      | ok batch r₁ =>
        rw [hbatch] at h
        obtain ⟨more, rfl, hrun, hfuel⟩ := ih h
        refine ⟨batch :: more, by simp, .cons hbatch hrun, fun hne => ?_⟩
        rw [List.length_cons, hfuel hne]

/-- As long as a reader is not at its end, no column has fewer records than have been read, and one
has more. -/
theorem InStep.exists_lt_length (h : InStep columns batchSize r) (hend : r.isAtEnd = false) :
    ∃ c ∈ columns, r.recordsRead < (recordsOf c.column.rest).length := by
  obtain ⟨c', hc', hopen⟩ : ∃ c' ∈ r.columns, c'.isAtEnd = false := by
    simpa [BatchReader.isAtEnd] using hend
  obtain ⟨c, hc, hbehind⟩ := exists_mem_of_forall₂ h.behind hc'
  exact ⟨c, hc, hbehind.lt_length hopen⟩

theorem InStep.le_length (h : InStep columns batchSize r) (hc : c ∈ columns) :
    r.recordsRead ≤ (recordsOf c.column.rest).length := by
  obtain ⟨c', -, hbehind⟩ := exists_mem_of_forall₂ h.behind.flip hc
  exact hbehind.le_length

theorem InStep.length_eq (h : InStep columns batchSize r) (hend : r.isAtEnd = true)
    (hc : c ∈ columns) : (recordsOf c.column.rest).length = r.recordsRead := by
  obtain ⟨c', hc', hbehind⟩ := exists_mem_of_forall₂ h.behind.flip hc
  exact hbehind.length_eq (isAtEnd_iff.1 hend c' hc')

/-- Reading all batches ends at the end: there is fuel for more records than any column has. -/
theorem InStep.run_of_readAll (h : InStep columns batchSize r)
    (hread : readAll r = .ok batches r') : Run r batches r' ∧ r'.isAtEnd = true := by
  obtain ⟨more, hmore, hrun, hfuel⟩ := run_of_readAllFrom hread
  obtain rfl : batches = more := hmore
  refine ⟨hrun, ?_⟩
  by_contra hend
  rw [Bool.not_eq_true] at hend
  obtain ⟨h', hfull⟩ := h.run hrun
  obtain ⟨hopen, hcount⟩ := hfull hend
  obtain ⟨c, hc, hlt⟩ := h'.exists_lt_length hend
  -- the records left in this column are at most the entries left in all columns
  obtain ⟨c₁, hc₁, hbehind⟩ := exists_mem_of_forall₂ h.behind.flip hc
  have hleft : (recordsOf c.column.rest).length - r.recordsRead ≤ c₁.column.rest.length := by
    rw [← List.length_drop, ← hbehind.records_eq]
    exact length_recordsOf_le _
  have hentries : c₁.column.rest.length ≤ (r.columns.flatMap fun c => c.column.rest).length :=
    (List.sublist_flatten_of_mem (List.mem_map_of_mem (f := fun c => c.column.rest) hc₁)).length_le
  have hbatches : batches.length ≤ batches.length * batchSize :=
    Nat.le_mul_of_pos_right _ (Nat.pos_of_ne_zero h.batchSize_ne_zero)
  rw [hfuel hend] at hcount hbatches
  omega

/-- Columns are read in lock step. Whatever batches have been read, every column stands behind as
many records as have been read. A batch has at most `batchSize` of them, and fewer only if it is
followed by the end of all columns, as it then says. As long as there is no such end, every batch
has been a full one and no column has fewer records than that; so reading all batches comes to the
end. There all columns have had the same number of records: columns that do not are refused. -/
theorem columns_in_lock_step (h : ofColumns columns batchSize = .ok r) :
    (∀ batches r', Run r batches r' →
      List.Forall₂ (Behind r'.recordsRead) columns r'.columns ∧
      (∀ batch r'', readBatch r' = .ok batch r'' →
        r''.recordsRead = r'.recordsRead + batch.recordCount ∧ batch.recordCount ≤ batchSize ∧
        batch.isLast = r''.isAtEnd ∧ (batch.recordCount < batchSize → r''.isAtEnd = true)) ∧
      (r'.isAtEnd = false → r'.recordsRead = batches.length * batchSize ∧
        (∀ c ∈ columns, r'.recordsRead ≤ (recordsOf c.column.rest).length) ∧
        ∃ c ∈ columns, r'.recordsRead < (recordsOf c.column.rest).length) ∧
      (r'.isAtEnd = true → ∀ c ∈ columns, (recordsOf c.column.rest).length = r'.recordsRead)) ∧
    (∀ batches r', readAll r = .ok batches r' → Run r batches r' ∧ r'.isAtEnd = true) ∧
    ((∃ c ∈ columns, ∃ c' ∈ columns,
        (recordsOf c.column.rest).length ≠ (recordsOf c'.column.rest).length) →
      ∃ e r', readAll r = .error e r') := by
  obtain ⟨hstart, hzero⟩ := inStep_of_ofColumns h
  refine ⟨fun batches r' hrun => ?_, fun batches r' => hstart.run_of_readAll, ?_⟩
  · obtain ⟨hstep, hfull⟩ := hstart.run hrun
    refine ⟨hstep.behind, fun batch r'' hread => ?_, fun hend => ?_, fun hend c hc => ?_⟩
    · obtain ⟨-, hcount, hle, hlast, hshort, -⟩ := hstep.readBatch hread
      exact ⟨hcount, hle, hlast, hshort⟩
    · refine ⟨?_, fun c hc => hstep.le_length hc, hstep.exists_lt_length hend⟩
      rw [(hfull hend).2, hzero, Nat.zero_add]
    · exact hstep.length_eq hend hc
  · rintro ⟨c, hc, c', hc', hne⟩
    cases hread : readAll r with
    | error e r' => exact ⟨e, r', rfl⟩
    | ok batches r' =>
      obtain ⟨hrun, hend⟩ := hstart.run_of_readAll hread
      have hstep := (hstart.run hrun).1
      exact absurd ((hstep.length_eq hend hc).trans (hstep.length_eq hend hc').symm) hne

/-- Two lists beside two numbers, in batches of one record, and beside three of them. -/
theorem columns_in_lock_step_lists :
    (∃ r batches r', ofColumns
        [⟨.ofEntries [⟨1, 0, some 1⟩, ⟨1, 1, some 2⟩, ⟨0, 0, none⟩],
          ⟨[.repeated, .repeated], rfl, by decide⟩⟩,
        ⟨.ofEntries [⟨0, 0, some 7⟩, ⟨0, 0, some 8⟩], ⟨[.repeated], rfl, by decide⟩⟩] 1 = .ok r ∧
      readAll r = .ok batches r' ∧ batches.map RecordBatch.recordCount = [1, 1] ∧
      Run r batches r' ∧ r'.isAtEnd = true) ∧
    ∃ r, ofColumns
        [⟨.ofEntries [⟨1, 0, some 1⟩, ⟨1, 1, some 2⟩, ⟨0, 0, none⟩],
          ⟨[.repeated, .repeated], rfl, by decide⟩⟩,
        ⟨.ofEntries [⟨0, 0, some 7⟩, ⟨0, 0, some 8⟩, ⟨0, 0, some 9⟩],
          ⟨[.repeated], rfl, by decide⟩⟩] 1 = .ok r ∧ ∃ e r', readAll r = .error e r' := by
  refine ⟨⟨_, _, _, rfl, rfl, rfl, ?_⟩, ⟨_, rfl, ?_⟩⟩
  · exact (columns_in_lock_step
      (ofColumns_eq_ok (Nat.succ_ne_zero 0) (List.cons_ne_nil _ _))).2.1 _ _ rfl
  · exact (columns_in_lock_step
      (ofColumns_eq_ok (Nat.succ_ne_zero 0) (List.cons_ne_nil _ _))).2.2
      ⟨_, List.mem_cons_self, _, List.mem_cons_of_mem _ List.mem_cons_self, by decide⟩

end BatchReader

end WireColumns
