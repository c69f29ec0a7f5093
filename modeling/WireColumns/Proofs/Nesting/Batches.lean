import WireColumns.Nesting.BatchReader
import WireColumns.Proofs.Nesting.Shredding

/-! # Batches put together again

The batches of a column, put together, are what one pass over the column gives
(`BatchReader.readAll_eq_one_pass`), so it does not matter how many records a batch has. Each batch
starts without nodes, and what it brings can be put on top of what the batches in front of it have
brought (`ParentLists.Stacks`). -/

namespace WireColumns

open ParentLists

variable {α : Type}

/-- The levels of an entry. -/
def LevelEntry.levels (e : LevelEntry α) : Int16 × Int16 := (e.definition, e.repetition)

/-- The list of step `i` put together from those of batches, with `passed` nodes of the step above
in the batches in front. -/
def joinedFrom (i : Nat) : (passed : Nat) → List (Array (Array Nat)) → List Nat
  | _, [] => []
  | passed, lists :: rest =>
    (parentsAt lists i).map (passed + ·) ++
      joinedFrom i (if i = 0 then 0 else passed + (parentsAt lists (i - 1)).length) rest

namespace LeafColumn

variable {batchSize : Nat} {entries rest : List (LevelEntry α)} {progress progress' : Progress α}

/-- The entries that are taken are added to what there is; behind the first, a record ends where
they end. -/
theorem readFrom_eq_ok (h : readFrom batchSize progress entries = .ok progress' rest) :
    ∃ taken, entries = taken ++ rest ∧
      addAll (taken.map LevelEntry.levels) progress.nodes = .ok () progress'.nodes ∧
      progress'.values.toList = progress.values.toList ++ taken.filterMap LevelEntry.value? ∧
      (progress.records ≠ 0 → ∀ e ∈ rest.head?, e.repetition = 0) := by
  induction entries generalizing progress with
  | nil =>
    cases h
    exact ⟨[], rfl, rfl, by simp, nofun⟩
  | cons e entries ih =>
    obtain ⟨nodes, values, records⟩ := progress
    rw [readFrom] at h
    dsimp only at h
    split at h
    next hends =>
      cases h
      refine ⟨[], rfl, rfl, by simp, fun hrecords e' he' => ?_⟩
      obtain rfl : e = e' := Option.some.inj he'
      simpa [hrecords] using (Bool.and_eq_true_iff.1 hends).1
    next =>
      split at h
      next => cases h
      next nodes' hadd =>
        obtain ⟨taken, rfl, hall, hvalues, hrest⟩ := ih h
        refine ⟨e :: taken, rfl, ?_, ?_, fun hrecords => hrest ?_⟩
        · rw [List.map_cons, LevelEntry.levels, addAll_cons, hadd]
          exact hall
        · rw [hvalues, List.filterMap_cons]
          cases e.value? <;> simp
        · dsimp only
          split <;> omega

/-- A batch takes at least one entry, and ends in front of a record. -/
theorem readFrom_start (hsize : batchSize ≠ 0) {e : LevelEntry α} {nodes : ParentLists}
    {values : Array α}
    (h : readFrom batchSize ⟨nodes, values, 0⟩ (e :: entries) = .ok progress' rest) :
    ∃ taken, e :: entries = e :: taken ++ rest ∧
      addAll ((e :: taken).map LevelEntry.levels) nodes = .ok () progress'.nodes ∧
      progress'.values.toList = values.toList ++ (e :: taken).filterMap LevelEntry.value? ∧
      ∀ e' ∈ rest.head?, e'.repetition = 0 := by
  have hopens : (((0 : Nat) == 0 || e.repetition == 0) && (0 : Nat) == batchSize) = false := by
    simpa using hsize.symm
  rw [readFrom] at h
  simp only [hopens] at h
  rw [if_neg Bool.false_ne_true] at h
  cases hadd : add e.definition e.repetition nodes with
  | error _ _ =>
    rw [hadd] at h
    cases h
  | ok _ nodes' =>
    rw [hadd] at h
    obtain ⟨taken, rfl, hall, hvalues, hrest⟩ := readFrom_eq_ok h
    refine ⟨taken, rfl, ?_, ?_, hrest (Nat.succ_ne_zero 0)⟩
    · rw [List.map_cons, LevelEntry.levels, addAll_cons, hadd]
      exact hall
    · rw [hvalues, List.filterMap_cons]
      cases e.value? <;> simp

/-- Entries that can be added can be read. -/
theorem exists_readFrom (batchSize : Nat) (progress : Progress α) {nodes : ParentLists}
    (h : addAll (entries.map LevelEntry.levels) progress.nodes = .ok () nodes) :
    ∃ progress' rest, readFrom batchSize progress entries = .ok progress' rest := by
  induction entries generalizing progress with
  | nil => exact ⟨progress, [], rfl⟩
  | cons e entries ih =>
    rw [readFrom]
    dsimp only
    split
    next => exact ⟨_, _, rfl⟩
    next =>
      obtain ⟨nodes', hadd, hall⟩ := of_addAll_cons h
      change add e.definition e.repetition progress.nodes = _ at hadd
      rw [hadd]
      exact ih _ hall

end LeafColumn

namespace BatchReader

variable {r r' : BatchReader α} {p : Pattern}

/-- Reading a batch from a single column. -/
theorem readBatch_eq {c : LeafColumn α} (h : r.columns = [c]) :
    readBatch r =
      match LeafColumn.readRecords r.batchSize c with
      | .ok (batch, records) c' =>
        .ok ⟨[batch], records, c'.isAtEnd⟩
          { r with columns := [c'], recordsRead := r.recordsRead + records }
      | .error e c' => .error e { r with columns := [c'] } := by
  unfold readBatch
  rw [h, readColumns]
  cases LeafColumn.readRecords r.batchSize c with
  | error e c' => rfl
  | ok part c' =>
    obtain ⟨batch, records⟩ := part
    simp [readColumns, isAtEnd, Functor.map, Except.map]

/-- A reader of a single column, of which the given entries are left. -/
def Reads (p : Pattern) (rest : List (LevelEntry α)) (r : BatchReader α) : Prop :=
  ∃ size, r.columns = [⟨⟨size, rest⟩, p⟩]

variable {entries : List (LevelEntry α)}

theorem Reads.isAtEnd_iff (h : Reads p entries r) : r.isAtEnd = true ↔ entries = [] := by
  obtain ⟨size, hcolumns⟩ := h
  rw [isAtEnd, hcolumns]
  simp [LeafColumn.isAtEnd]

theorem Reads.readBatch_eq_ok (h : Reads p entries r) (hsize : r.batchSize ≠ 0)
    (hne : entries ≠ []) {batch : RecordBatch α} (hread : readBatch r = .ok batch r') :
    ∃ part taken rest, batch.columns = [part] ∧ entries = taken ++ rest ∧
      rest.length < entries.length ∧ Reads p rest r' ∧ r'.batchSize = r.batchSize ∧
      (∃ l, addAll (taken.map LevelEntry.levels) (.empty p) = .ok () l ∧ part.parents = l.lists) ∧
      part.values = taken.filterMap LevelEntry.value? ∧ ∀ e ∈ rest.head?, e.repetition = 0 := by
  obtain ⟨size, hcolumns⟩ := h
  obtain ⟨e, entries, rfl⟩ := List.exists_cons_of_ne_nil hne
  rw [readBatch_eq hcolumns, LeafColumn.readRecords] at hread
  dsimp only at hread
  cases hfrom : LeafColumn.readFrom r.batchSize ⟨.empty p, #[], 0⟩ (e :: entries) with
  | error _ _ =>
    rw [hfrom] at hread
    cases hread
  | ok progress rest =>
    rw [hfrom] at hread
    cases hread
    obtain ⟨taken, htaken, hall, hvalues, hrest⟩ := LeafColumn.readFrom_start hsize hfrom
    refine ⟨_, e :: taken, rest, rfl, htaken, ?_, ⟨size, rfl⟩, rfl, ⟨_, hall, rfl⟩, hvalues, hrest⟩
    rw [htaken, List.length_append, List.length_cons]
    omega

/-- Entries that can be added one behind the other are not refused in a batch. -/
theorem Reads.exists_readBatch (h : Reads p entries r)
    (hlinked : (entries.map LevelEntry.levels).IsChain (Linked p))
    (hfirst : ∀ e ∈ entries.head?, e.repetition = 0) :
    ∃ batch r', readBatch r = .ok batch r' := by
  obtain ⟨size, hcolumns⟩ := h
  have hstart : ∀ e ∈ (entries.map LevelEntry.levels).head?, e.2 = 0 := by
    rw [List.head?_map]
    intro e he
    obtain ⟨entry, hentry, rfl⟩ := Option.mem_map.1 he
    exact hfirst entry hentry
  obtain ⟨nodes, hall⟩ := addAll_empty hstart hlinked
  obtain ⟨progress, rest, hfrom⟩ :=
    LeafColumn.exists_readFrom r.batchSize ⟨.empty p, #[], 0⟩ hall
  rw [readBatch_eq hcolumns, LeafColumn.readRecords]
  dsimp only
  rw [hfrom]
  exact ⟨_, _, rfl⟩

/-! ## Reading to the end -/

theorem readAllFrom_succ (seen : Array (RecordBatch α)) (fuel : Nat) (r : BatchReader α) :
    readAllFrom seen (fuel + 1) r =
      if r.isAtEnd then .ok seen.toList r
      else
        match readBatch r with
        | .ok batch r' => readAllFrom (seen.push batch) fuel r'
        | .error e r' => .error e r' := by
  rw [readAllFrom]
  simp only [bind, EStateM.bind, modifyGet, MonadStateOf.modifyGet, EStateM.modifyGet]
  split
  · rfl
  · unfold EStateM.bind
    cases readBatch r <;> rfl

theorem joinedFrom_stacks {prev l m : ParentLists} (h : Stacks prev l m) (i : Nat)
    (rest : List (Array (Array Nat))) :
    parentsAt m.lists i ++ joinedFrom i (offset m.lists i) rest =
      parentsAt prev.lists i ++ joinedFrom i (offset prev.lists i) (l.lists :: rest) := by
  have hoffset : offset m.lists i =
      if i = 0 then 0 else offset prev.lists i + (parentsAt l.lists (i - 1)).length := by
    unfold offset
    split
    · rfl
    · rw [h.list_eq, List.length_append, List.length_map]
  rw [joinedFrom, ← List.append_assoc, ← h.list_eq, hoffset]

/-- The batches that are still to come, put on top of what has been read so far. -/
theorem Reads.readAllFrom_eq_ok {seen : Array (RecordBatch α)} {fuel : Nat}
    {batches : List (RecordBatch α)} {prev : ParentLists} (h : Reads p entries r)
    (hsize : r.batchSize ≠ 0) (hfuel : entries.length ≤ fuel) (hprev : Sound prev)
    (hpattern : prev.pattern = p) (hread : readAllFrom seen fuel r = .ok batches r') :
    r'.isAtEnd = true ∧ ∃ (parts : List (ColumnBatch α)) (nodes : ParentLists),
      batches.map RecordBatch.columns =
        seen.toList.map RecordBatch.columns ++ parts.map ([·]) ∧
      addAll (entries.map LevelEntry.levels) prev = .ok () nodes ∧
      (∀ i, parentsAt nodes.lists i = parentsAt prev.lists i ++
        joinedFrom i (offset prev.lists i) (parts.map ColumnBatch.parents)) ∧
      parts.flatMap ColumnBatch.values = entries.filterMap LevelEntry.value? := by
  induction fuel generalizing seen r entries prev with
  | zero =>
    obtain rfl : entries = [] := List.length_eq_zero_iff.1 (Nat.le_zero.1 hfuel)
    cases hread
    refine ⟨h.isAtEnd_iff.2 rfl, [], prev, (List.append_nil _).symm, rfl, fun i => ?_, rfl⟩
    exact (List.append_nil _).symm
  | succ fuel ih =>
    rw [readAllFrom_succ] at hread
    split at hread
    next hend =>
      obtain rfl := h.isAtEnd_iff.1 hend
      cases hread
      refine ⟨hend, [], prev, (List.append_nil _).symm, rfl, fun i => ?_, rfl⟩
      exact (List.append_nil _).symm
    next hend =>
      cases hbatch : readBatch r with
      | error _ _ =>
        rw [hbatch] at hread
        cases hread
      | ok batch r₁ =>
        rw [hbatch] at hread
        obtain ⟨part, taken, rest, hcolumns, rfl, hshort, hreads, hsize₁, ⟨l, hall, hparents⟩,
          hvalues, -⟩ := h.readBatch_eq_ok hsize (mt h.isAtEnd_iff.2 hend) hbatch
        -- a batch starts without nodes, which stand on top of whatever has been read
        have hstart : Stacks prev (empty p) prev := hpattern ▸ stacks_empty hprev.size_eq
        obtain ⟨m, hm, hstacks⟩ := hstart.addAll hprev (sound_empty p) hall
        obtain ⟨hmsound, hmpattern⟩ := hprev.of_addAll hm
        obtain ⟨hend', parts, nodes, hbatches, hrest, hlists, hvalues'⟩ :=
          ih hreads (hsize₁ ▸ hsize) (by omega) hmsound (hmpattern.trans hpattern) hread
        refine ⟨hend', part :: parts, nodes, ?_, ?_, fun i => ?_, ?_⟩
        · rw [hbatches, Array.toList_push, List.map_append, List.append_assoc, List.map_singleton,
            hcolumns]
          rfl
        · rw [List.map_append, addAll_append hm, hrest]
        · rw [hlists, joinedFrom_stacks hstacks, List.map_cons, hparents]
        · rw [List.flatMap_cons, hvalues, hvalues', List.filterMap_append]

theorem Reads.exists_readAllFrom (h : Reads p entries r) (hsize : r.batchSize ≠ 0)
    (hlinked : (entries.map LevelEntry.levels).IsChain (Linked p))
    (hfirst : ∀ e ∈ entries.head?, e.repetition = 0) (seen : Array (RecordBatch α)) (fuel : Nat) :
    ∃ batches r', readAllFrom seen fuel r = .ok batches r' := by
  induction fuel generalizing seen r entries with
  | zero => exact ⟨_, _, rfl⟩
  | succ fuel ih =>
    rw [readAllFrom_succ]
    split
    next => exact ⟨_, _, rfl⟩
    next hend =>
      obtain ⟨batch, r₁, hbatch⟩ := h.exists_readBatch hlinked hfirst
      rw [hbatch]
      obtain ⟨part, taken, rest, -, rfl, -, hreads, hsize₁, -, -, hrest⟩ :=
        h.readBatch_eq_ok hsize (mt h.isAtEnd_iff.2 hend) hbatch
      rw [List.map_append] at hlinked
      exact ih hreads (hsize₁ ▸ hsize) (List.isChain_append.1 hlinked).2.1 hrest _

/-! ## One pass -/

/-- The list of step `i`, put together from the batches of a single column. -/
def reassembled (batches : List (RecordBatch α)) (i : Nat) : List Nat :=
  joinedFrom i 0 (batches.flatMap fun batch => batch.columns.map ColumnBatch.parents)

/-- The values of the batches of a single column. -/
def allValues (batches : List (RecordBatch α)) : List α :=
  batches.flatMap fun batch => batch.columns.flatMap ColumnBatch.values

theorem reads_of_ofColumns {batchSize : Nat} {column : LevelColumn α}
    (h : ofColumns [⟨column, p⟩] batchSize = .ok r) :
    Reads p column.rest r ∧ r.batchSize ≠ 0 := by
  unfold ofColumns at h
  split at h
  next => cases h
  next hsize =>
    rw [if_neg (List.cons_ne_nil _ _)] at h
    cases h
    exact ⟨⟨column.size, rfl⟩, hsize⟩

theorem Reads.readAll_eq (h : Reads p entries r) :
    readAll r = readAllFrom #[] entries.length r := by
  obtain ⟨size, hcolumns⟩ := h
  rw [readAll, hcolumns]
  simp

/-- A column that is read to its end in batches is one that can be read in one pass, and the
batches put together are what the pass gives. -/
theorem Reads.readAll_eq_ok {batches : List (RecordBatch α)} (h : Reads p entries r)
    (hsize : r.batchSize ≠ 0) (hread : readAll r = .ok batches r') :
    r'.isAtEnd = true ∧ (∀ batch ∈ batches, batch.columns.length = 1) ∧
      ∃ nodes, addLevels (entries.map LevelEntry.definition) (entries.map LevelEntry.repetition)
          (.empty p) = .ok () nodes ∧
        nodes.lists.size = p.steps.length ∧
        (∀ i, parentsAt nodes.lists i = reassembled batches i) ∧
        allValues batches = entries.filterMap LevelEntry.value? := by
  rw [h.readAll_eq] at hread
  obtain ⟨hend, parts, nodes, hbatches, hall, hlists, hvalues⟩ :=
    h.readAllFrom_eq_ok hsize (Nat.le_refl _) (sound_empty p) rfl hread
  rw [List.map_nil, List.nil_append] at hbatches
  obtain ⟨hsound, hpattern⟩ := (sound_empty p).of_addAll hall
  have hparts : batches.flatMap RecordBatch.columns = parts := by
    rw [List.flatMap_def, hbatches, ← List.flatMap_def, List.flatMap_singleton']
  refine ⟨hend, fun batch hbatch => ?_, nodes, addLevels_of_addAll hall, ?_, fun i => ?_, ?_⟩
  · have hmem : batch.columns ∈ parts.map ([·]) := hbatches ▸ List.mem_map_of_mem hbatch
    obtain ⟨part, -, hpart⟩ := List.mem_map.1 hmem
    rw [← hpart]
    rfl
  · rw [hsound.size_eq, hpattern]
    rfl
  · have hjoined : offset (empty p).lists i = 0 := by
      unfold offset
      rw [parentsAt_empty]
      split <;> rfl
    rw [hlists, parentsAt_empty, hjoined, List.nil_append, reassembled, ← hparts, List.map_flatMap]
  · rw [allValues, ← hvalues, ← hparts, List.flatMap_assoc]

/-- Reading a column in batches is reading it in one pass. If all batches of a single column can be
read, so can the column at once, and its lists are those of the batches, put one behind the other
and with their parents moved up by the nodes that the step above has in the batches in front. So it
does not matter how many records a batch has; and no batch of shredded records is refused. -/
theorem readAll_eq_one_pass (p : Pattern) (entries : List (LevelEntry α)) :
    (∀ batchSize reader batches reader',
      ofColumns [⟨.ofEntries entries, p⟩] batchSize = .ok reader →
      readAll reader = .ok batches reader' →
      reader'.isAtEnd = true ∧ (∀ batch ∈ batches, batch.columns.length = 1) ∧
        ∃ nodes, addLevels (entries.map LevelEntry.definition) (entries.map LevelEntry.repetition)
            (.empty p) = .ok () nodes ∧
          nodes.lists.size = p.steps.length ∧
          (∀ i, parentsAt nodes.lists i = reassembled batches i) ∧
          allValues batches = entries.filterMap LevelEntry.value?) ∧
    (∀ size₁ size₂ reader₁ reader₂ batches₁ batches₂ reader₁' reader₂',
      ofColumns [⟨.ofEntries entries, p⟩] size₁ = .ok reader₁ →
      ofColumns [⟨.ofEntries entries, p⟩] size₂ = .ok reader₂ →
      readAll reader₁ = .ok batches₁ reader₁' → readAll reader₂ = .ok batches₂ reader₂' →
      reassembled batches₁ = reassembled batches₂ ∧ allValues batches₁ = allValues batches₂) ∧
    ∀ records : Nested p.steps,
      entries.map LevelEntry.levels = (Nested.shred p.steps records).map levels →
      ∀ batchSize ≠ 0, ∃ reader batches reader',
        ofColumns [⟨.ofEntries entries, p⟩] batchSize = .ok reader ∧
        readAll reader = .ok batches reader' := by
  refine ⟨?_, ?_, ?_⟩
  · intro batchSize reader batches reader' hreader hread
    obtain ⟨hreads, hsize⟩ := reads_of_ofColumns hreader
    exact hreads.readAll_eq_ok hsize hread
  · intro size₁ size₂ reader₁ reader₂ batches₁ batches₂ reader₁' reader₂' h₁ h₂ hread₁ hread₂
    obtain ⟨hreads₁, hsize₁⟩ := reads_of_ofColumns h₁
    obtain ⟨hreads₂, hsize₂⟩ := reads_of_ofColumns h₂
    obtain ⟨-, -, nodes₁, hadd₁, -, hlists₁, hvalues₁⟩ := hreads₁.readAll_eq_ok hsize₁ hread₁
    obtain ⟨-, -, nodes₂, hadd₂, -, hlists₂, hvalues₂⟩ := hreads₂.readAll_eq_ok hsize₂ hread₂
    obtain rfl : nodes₁ = nodes₂ := by
      have hsame := hadd₁.symm.trans hadd₂
      injection hsame
    exact ⟨funext fun i => (hlists₁ i).symm.trans (hlists₂ i), hvalues₁.trans hvalues₂.symm⟩
  · intro records hrecords batchSize hsize
    have hreader : ofColumns [⟨.ofEntries entries, p⟩] batchSize =
        .ok ⟨[⟨.ofEntries entries, p⟩], batchSize, 0⟩ := by
      rw [ofColumns, if_neg hsize, if_neg (List.cons_ne_nil _ _)]
    have hlinked : (entries.map LevelEntry.levels).IsChain (Linked p) :=
      hrecords ▸ (run_shred rfl records).linked
    have hfirst : ∀ e ∈ entries.head?, e.repetition = 0 := by
      intro e he
      refine head_shred p records e.levels ?_
      rw [← hrecords, List.head?_map]
      exact Option.mem_map_of_mem _ he
    obtain ⟨hreads, -⟩ := reads_of_ofColumns hreader
    obtain ⟨batches, reader', hread⟩ :=
      hreads.exists_readAllFrom hsize hlinked hfirst #[] entries.length
    exact ⟨_, batches, reader', hreader, hreads.readAll_eq.trans hread⟩

/-- A list of two elements and one of a single element, in batches of one record. -/
theorem readAll_eq_one_pass_lists :
    ∃ reader batches reader',
      ofColumns [⟨.ofEntries [⟨1, 0, some 'a'⟩, ⟨1, 1, some 'b'⟩, ⟨1, 0, some 'c'⟩],
        ⟨[.repeated, .repeated], rfl, by decide⟩⟩] 1 = .ok reader ∧
      readAll reader = .ok batches reader' ∧ reader'.isAtEnd = true ∧
      ∃ nodes, addLevels [1, 1, 1] [0, 1, 0]
          (.empty ⟨[.repeated, .repeated], rfl, by decide⟩) = .ok () nodes ∧
        parentsAt nodes.lists 1 = [0, 0, 1] ∧ allValues batches = ['a', 'b', 'c'] := by
  obtain ⟨hpass, -, -⟩ := readAll_eq_one_pass ⟨[.repeated, .repeated], rfl, by decide⟩
    [⟨1, 0, some 'a'⟩, ⟨1, 1, some 'b'⟩, ⟨1, 0, some 'c'⟩]
  obtain ⟨hend, -, nodes, hadd, -, hlists, hvalues⟩ := hpass 1 _
    [⟨[⟨#[#[0], #[0, 0]], ['a', 'b']⟩], 1, false⟩, ⟨[⟨#[#[0], #[0]], ['c']⟩], 1, true⟩] _ rfl rfl
  exact ⟨_, _, _, rfl, rfl, hend, nodes, hadd, (hlists 1).trans rfl, hvalues⟩

end BatchReader

end WireColumns
