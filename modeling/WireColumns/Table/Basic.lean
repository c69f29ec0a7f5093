import WireColumns.Column.Decoder
import WireColumns.Table.ListArray

/-! # Tables

A table has one row per message and one list column per requested field. Neither the lists nor
their items are ever null.
-/

namespace WireColumns

/-- A column of lists of the given items. No list is null. -/
def TableField.ofType (name : String) (type : ItemType) : TableField := ⟨name, .ofType type, false⟩

/-- The schema of the tables made from a decoder's batches, with the given column names. -/
def Decoder.schema (d : Decoder) (names : List String) : Except Error (List TableField) :=
  if names.length ≠ d.fieldCount then
    .error (.invalidArgument (.fieldNameCount names.length d.fieldCount))
  else .ok ((d.fields.zip names).map fun (spec, name) => .ofType name spec.kind.valueType.itemType)

/-- The column as that of a table, and the field that declares it. -/
def ArrayColumn.toTableColumn [ArrayLibrary] (c : ArrayColumn) (name : String)
    (parentCount : Nat) : Except Error (TableField × ListArray) := do
  return (.ofType name c.values.type, ← c.toListArray parentCount)

/-- Columns put down by output slot until there is one in each. -/
structure ColumnSink where
  slots : Array (Option ArrayColumn)
  deriving Repr

namespace ColumnSink

/-- A sink with the given number of slots. -/
def ofSize (size : Nat) : ColumnSink := ⟨Array.replicate size none⟩

/-- Puts a column into a slot, in place of the one that may be there. Slots are added as
needed. -/
def accept [ArrayLibrary] (sink : ColumnSink) (slot : Nat) (column : Column) : ColumnSink :=
  let slots := sink.slots ++ Array.replicate (slot + 1 - sink.slots.size) none
  ⟨slots.setIfInBounds slot (some column.toArrays)⟩

/-- The columns of the slots from `slot` on. -/
def columnsFrom (slot : Nat) : List (Option ArrayColumn) → Except Fault (List ArrayColumn)
  | [] => .ok []
  | none :: _ => .error (.missingOutput slot)
  | some column :: rest => (column :: ·) <$> columnsFrom (slot + 1) rest

/-- The columns in the order of their slots, if every slot has one. -/
def columns (sink : ColumnSink) : Except Error (List ArrayColumn) :=
  match columnsFrom 0 sink.slots.toList with
  | .ok columns => .ok columns
  | .error fault => .error (.fault fault)

/-- The table of the columns, with one row per parent. -/
def toTable [ArrayLibrary] (sink : ColumnSink) (names : List String) (parentCount : Nat) :
    Except Error Table := do
  let columns ← sink.columns
  if names.length ≠ columns.length then
    throw (.invalidArgument (.columnNameCount names.length columns.length))
  let parts ← (names.zip columns).mapM fun (name, c) => c.toTableColumn name parentCount
  match ArrayLibrary.table? (parts.map Prod.fst) (parts.map Prod.snd) with
  | some table => return table
  | none => throw .tableRefused

end ColumnSink

/-- The sink behind all columns of a batch, each put into its slot. -/
def Batch.emitTo [ArrayLibrary] (batch : Batch) (sink : ColumnSink) : ColumnSink :=
  batch.columns.zipIdx.foldl (fun sink (column, slot) => sink.accept slot column) sink

/-- A sink with a slot for each column of a batch, all of them filled. -/
def Batch.toSink [ArrayLibrary] (batch : Batch) : ColumnSink :=
  batch.emitTo (.ofSize batch.columns.length)

end WireColumns
