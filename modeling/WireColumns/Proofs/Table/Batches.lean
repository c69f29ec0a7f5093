import WireColumns.Proofs.Lists
import WireColumns.Proofs.Table.Arrays
import WireColumns.Table.Basic

/-! # Tables of batches

A batch that is decoded becomes a table of the schema that the decoder has promised
(`Decoder.decode_toTable`). The columns come into the sink in the order of their slots and fill it
(`Batch.columns_emitTo`), and as ragged columns they become list arrays of equal length
(`ColumnSink.toTable_eq`). The promised schema takes its item types from the kinds of the requests,
that of the table from the arrays (`Decoder.schema_eq_ok`). -/

namespace WireColumns

namespace ColumnSink

/-! ## Filling a sink -/

theorem columnsFrom_map_some (slot : Nat) (columns : List ArrayColumn) :
    columnsFrom slot (columns.map some) = .ok columns := by
  induction columns generalizing slot with
  | nil => rfl
  | cons c columns ih =>
    rw [List.map_cons, columnsFrom, ih]
    rfl

section

variable [ArrayLibrary]

theorem slots_accept {sink : ColumnSink} {front : List ArrayColumn}
    {rest : List (Option ArrayColumn)} (h : sink.slots.toList = front.map some ++ rest)
    (c : Column) :
    (sink.accept front.length c).slots.toList =
      (front ++ [c.toArrays]).map some ++ rest.tail := by
  have hsize : sink.slots.size = front.length + rest.length := by
    rw [← Array.length_toList, h, List.length_append, List.length_map]
  rw [accept, Array.toList_setIfInBounds, Array.toList_append, Array.toList_replicate, h, hsize]
  cases rest with
  | nil => simp
  | cons slot rest => simp

/-- Columns that come in the order of their slots fill the sink, if it has no more slots. -/
theorem slots_foldl_accept {columns : List Column} {sink : ColumnSink} {front : List ArrayColumn}
    {rest : List (Option ArrayColumn)} (h : sink.slots.toList = front.map some ++ rest)
    (hrest : rest.length ≤ columns.length) :
    ((columns.zipIdx front.length).foldl (fun sink (column, slot) => sink.accept slot column)
      sink).slots.toList = (front ++ columns.map Column.toArrays).map some := by
  induction columns generalizing sink front rest with
  | nil =>
    obtain rfl := List.length_eq_zero_iff.1 (Nat.le_zero.1 hrest)
    simpa using h
  | cons c columns ih =>
    have hfront : front.length + 1 = (front ++ [c.toArrays]).length := by simp
    rw [List.zipIdx_cons, List.foldl_cons, hfront, ih (slots_accept h c), List.append_assoc]
    · rfl
    · rw [List.length_tail]
      exact Nat.sub_le_of_le_add hrest

/-- A batch fills a sink that has no more slots than the batch has columns. -/
theorem columns_emitTo {batch : Batch} {sink : ColumnSink}
    (h : sink.slots.size ≤ batch.columns.length) :
    (batch.emitTo sink).columns = .ok (batch.columns.map Column.toArrays) := by
  have hslots : (batch.emitTo sink).slots.toList =
      (batch.columns.map Column.toArrays).map some :=
    @slots_foldl_accept _ batch.columns sink [] sink.slots.toList rfl h
  rw [columns, hslots, columnsFrom_map_some]

end

/-! ## The table of a sink -/

variable {columns : List Column} {names : List String} {n : Nat}

/-- The columns of a table of `n` rows, each behind the field that declares it. -/
def tableColumns (names : List String) (columns : List Column) (n : Nat) :
    List (TableField × ListArray) :=
  (names.zip columns).map fun (name, c) => (.ofType name c.type.itemType, c.toLists n)

/-- The table of columns with the given names, of `n` rows. -/
def tableOf (names : List String) (columns : List Column) (n : Nat) : Table where
  rowCount := n
  schema := (tableColumns names columns n).map Prod.fst
  columns := (tableColumns names columns n).map Prod.snd

variable [ArrayLibrary] [LawfulArrayLibrary]

theorem mapM_toTableColumn (hragged : ∀ c ∈ columns, c.IsRagged n)
    (htyped : ∀ c ∈ columns, c.IsTyped) :
    (names.zip (columns.map Column.toArrays)).mapM (fun (name, c) => c.toTableColumn name n) =
      .ok (tableColumns names columns n) := by
  rw [tableColumns, mapM_eq_ok_iff, List.zip_map_right, List.forall₂_map_left_iff,
    List.forall₂_map_right_iff, List.forall₂_same]
  rintro ⟨name, c⟩ hc
  have hc := (List.of_mem_zip hc).2
  have hlists := (hragged c hc).toListArray_toArrays (htyped c hc)
  have htype : c.toArrays.values.type = c.type.itemType :=
    congrArg ItemArray.type (htyped c hc).toArray_stored
  simp only [Prod.map, id, ArrayColumn.toTableColumn, hlists, htype]
  rfl

/-- Ragged columns, of which there is one at least, become a table. -/
theorem toTable_eq {sink : ColumnSink} (h : sink.columns = .ok (columns.map Column.toArrays))
    (hnames : names.length = columns.length) (hne : columns ≠ [])
    (hragged : ∀ c ∈ columns, c.IsRagged n) (htyped : ∀ c ∈ columns, c.IsTyped) :
    sink.toTable names n = .ok (tableOf names columns n) := by
  have htable : ArrayLibrary.table? ((tableColumns names columns n).map Prod.fst)
      ((tableColumns names columns n).map Prod.snd) = some (tableOf names columns n) := by
    refine LawfulArrayLibrary.table?_eq ?_ ?_ ?_
    · rw [← List.length_pos_iff, List.length_map, tableColumns, List.length_map, List.length_zip,
        hnames, Nat.min_self]
      exact List.length_pos_iff.2 hne
    · rw [List.forall₂_map_left_iff, List.forall₂_map_right_iff, List.forall₂_same]
      exact List.forall_mem_map.2 fun _ _ => ⟨rfl, .inr rfl⟩
    · exact List.forall_mem_map.2 (List.forall_mem_map.2 fun part _ => part.2.size_toLists n)
  have hlength : names.length = (columns.map Column.toArrays).length := by
    rw [hnames, List.length_map]
  simp only [toTable, h, bind, Except.bind]
  rw [if_neg (not_not.2 hlength)]
  simp only [pure, Except.pure, mapM_toTableColumn hragged htyped, htable]

end ColumnSink

namespace Decoder

variable {d : Decoder} {fields : List FieldSpec} {options : DecodeOptions} {messages : List Bytes}
variable {batch : Batch} {names : List String}

/-- The schema that is promised is that of the columns that come. -/
theorem schema_eq_ok (hd : ofFields fields options = .ok d) (h : d.decode messages = .ok batch)
    (hnames : names.length = d.fieldCount) :
    d.schema names = .ok (ColumnSink.tableOf names batch.columns batch.messageCount).schema := by
  obtain ⟨-, -, hcolumns⟩ := gathered_of_decode hd h
  rw [schema, if_neg (not_not.2 hnames), Decoder.fields, inOutputOrder_map, ColumnSink.tableOf,
    ColumnSink.tableColumns, hcolumns, List.zip_map_left, List.zip_map_right, List.map_map,
    List.map_map, List.map_map, ← List.zip_swap, List.map_map]
  rfl

/-- A batch that is decoded becomes the table that the decoder has promised, whatever lawful library
builds arrays and tables. Into a sink that has no more slots than there are fields, the batch puts
one column per slot; and the table of the sink has a row for every message, the schema of the
decoder, and in row `i` of each column the list of the values that have been collected there with
parent `i`, in their order. Nothing in it is null or may be. -/
theorem decode_toTable [ArrayLibrary] [LawfulArrayLibrary] (hd : ofFields fields options = .ok d)
    (hne : fields ≠ []) (h : d.decode messages = .ok batch) (hnames : names.length = d.fieldCount)
    {sink : ColumnSink} (hsink : sink.slots.size ≤ d.fieldCount) :
    ∃ table, (batch.emitTo sink).toTable names batch.messageCount = .ok table ∧
      table.rowCount = messages.length ∧ d.schema names = .ok table.schema ∧
      table.columns.length = fields.length ∧
      ∀ (slot : Nat) (a : ListArray), table.columns[slot]? = some a →
        ∃ c field, batch.columns[slot]? = some c ∧ table.schema[slot]? = some field ∧
          a.item = field.item ∧ a.values.type = field.item.type ∧
          field.nullable = false ∧ field.item.nullable = false ∧
          a.nullCount = 0 ∧ a.values.nullCount = 0 ∧
          a.WellFormed table.rowCount ∧ a.values.items = c.values.map some ∧
          a.lists.length = table.rowCount ∧
          ∀ i < table.rowCount, a.lists[i]? = some ((c.valuesUnder i).map some) := by
  have hlength : batch.columns.length = fields.length := length_columns_of_decode hd h
  have hcount : d.fieldCount = batch.columns.length := by
    rw [hlength, fieldCount, length_requests_of_ofFields hd]
  have hragged : ∀ c ∈ batch.columns, c.IsRagged batch.messageCount :=
    fun c => isRagged_of_decode hd h
  have hcolumns_ne : batch.columns ≠ [] := by
    rwa [← List.length_pos_iff, hlength, List.length_pos_iff]
  have htable := ColumnSink.toTable_eq (ColumnSink.columns_emitTo (hcount ▸ hsink))
    (hnames.trans hcount) hcolumns_ne hragged fun c => isTyped_of_decode hd h
  refine ⟨_, htable, (gathered_of_decode hd h).1, schema_eq_ok hd h hnames, ?_, fun slot a ha => ?_⟩
  · rw [ColumnSink.tableOf, List.length_map, ColumnSink.tableColumns, List.length_map,
      List.length_zip, hnames, hcount, Nat.min_self, hlength]
  · obtain ⟨part, hpart, rfl⟩ := Option.map_eq_some_iff.1 (List.getElem?_map.symm.trans ha)
    have hfield : (ColumnSink.tableOf names batch.columns batch.messageCount).schema[slot]? =
        some part.1 := by
      rw [ColumnSink.tableOf, List.getElem?_map, hpart]
      rfl
    obtain ⟨⟨name, c⟩, hname, rfl⟩ := Option.map_eq_some_iff.1 (List.getElem?_map.symm.trans hpart)
    have hc := (List.getElem?_zip_eq_some.1 hname).2
    have hc_ragged := hragged c (List.mem_of_getElem? hc)
    refine ⟨c, _, hc, hfield, rfl, rfl, rfl, rfl, rfl, c.nullCount_toItems,
      hc_ragged.wellFormed_toLists, rfl, ?_, fun i hi => ?_⟩
    · rw [hc_ragged.lists_toLists, List.length_map, List.length_range]
      rfl
    · have hi : i < batch.messageCount := hi
      rw [hc_ragged.lists_toLists, List.getElem?_map, List.getElem?_range hi]
      rfl

/-- A singular field whose column comes behind that of a repeated one, in two messages, of which the
first has no value for the singular field. -/
theorem decode_toTable_swapped :
    @LawfulArrayLibrary .checked ∧
    ∃ d batch table a,
      ofFields [⟨1, .uint32, false, some 1, none⟩, ⟨2, .string, true, some 0, none⟩] {} = .ok d ∧
      d.decode [[18, 1, 97, 18, 1, 98], [8, 9, 18, 0]] = .ok batch ∧
      (batch.emitTo (.ofSize 0)).toTable ["tags", "id"] batch.messageCount = .ok table ∧
      d.schema ["tags", "id"] = .ok table.schema ∧
      table.schema = [⟨"tags", ⟨"item", .largeBinary, false⟩, false⟩,
        ⟨"id", ⟨"item", .uint32, false⟩, false⟩] ∧
      table.columns[0]? = some a ∧
      a.lists[0]? = some [some (.bytes [97]), some (.bytes [98])] := by
  have hfields : ofFields [⟨1, .uint32, false, some 1, none⟩, ⟨2, .string, true, some 0, none⟩]
      {} = .ok ⟨[⟨⟨1, .uint32, false, some 1, none⟩, 1⟩, ⟨⟨2, .string, true, some 0, none⟩, 0⟩],
        {}⟩ := by cbv
  have hbatch : decode ⟨[⟨⟨1, .uint32, false, some 1, none⟩, 1⟩,
      ⟨⟨2, .string, true, some 0, none⟩, 0⟩], {}⟩ [[18, 1, 97, 18, 1, 98], [8, 9, 18, 0]] =
      .ok ⟨[2, 1], [⟨.bytes, .borrowed, [.bytes [97], .bytes [98], .bytes []], [0, 0, 1]⟩,
        ⟨.uint32, .borrowed, [.uint32 9], [1]⟩], 2, 0⟩ := by cbv
  have hnames : ["tags", "id"].length = 2 := rfl
  have hsink : (ColumnSink.ofSize 0).slots.size ≤ 2 := Nat.zero_le 2
  obtain ⟨table, htable, hrows, hschema, hlength, hcolumns⟩ :=
    decode_toTable hfields (List.cons_ne_nil _ _) hbatch hnames hsink
  have hslot : 0 < table.columns.length := hlength ▸ Nat.two_pos
  obtain ⟨c, -, hc, -, -, -, -, -, -, -, -, -, -, hlists⟩ :=
    hcolumns 0 _ (List.getElem?_eq_getElem hslot)
  obtain rfl := Option.some.inj hc
  refine ⟨ArrayLibrary.lawful_checked, _, _, table, _, hfields, hbatch, htable, hschema,
    Except.ok.inj (hschema.symm.trans (by cbv)), List.getElem?_eq_getElem hslot, ?_⟩
  exact hlists 0 (hrows ▸ Nat.two_pos)

end Decoder

end WireColumns
