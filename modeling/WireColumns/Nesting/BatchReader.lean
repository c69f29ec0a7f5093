import WireColumns.Nesting.LevelColumn
import WireColumns.Nesting.ParentLists

/-! # Reading records in batches

A record is an entry with repetition level 0 and all entries up to the next one with level 0. A
batch reader takes whole records from several leaf columns in lock step and gives the parent lists
and values of each batch. All columns must have the same number of records in every batch.
-/

namespace WireColumns

variable {α : Type}

/-- The part of one column in a batch. -/
structure ColumnBatch (α : Type) where
  /-- one list per step of the column's pattern -/
  parents : Array (Array Nat)
  values : List α
  deriving Repr

/-- The records of a batch in all columns. -/
structure RecordBatch (α : Type) where
  columns : List (ColumnBatch α)
  recordCount : Nat
  /-- whether no column has entries left -/
  isLast : Bool
  deriving Repr

/-- A leaf column and its pattern. -/
structure LeafColumn (α : Type) where
  column : LevelColumn α
  pattern : Pattern

namespace LeafColumn

/-- What a batch has of a column so far. -/
structure Progress (α : Type) where
  nodes : ParentLists
  values : Array α
  records : Nat

/-- Reads on. An entry opens a record if it is the first of the batch or has repetition level 0;
the batch ends in front of the record that would be one too many. On failure the entry that could
not be added is the first of those left. -/
def readFrom (batchSize : Nat) (progress : Progress α) :
    List (LevelEntry α) → EStateM.Result Corruption (List (LevelEntry α)) (Progress α)
  | [] => .ok progress []
  | e :: rest =>
    let ⟨nodes, values, records⟩ := progress
    let opens := records == 0 || e.repetition == 0
    if opens && records == batchSize then .ok ⟨nodes, values, records⟩ (e :: rest)
    else
      match ParentLists.add e.definition e.repetition nodes with
      | .error cause _ => .error cause (e :: rest)
      | .ok _ nodes =>
        let values := match e.value? with
          | some value => values.push value
          | none => values
        readFrom batchSize ⟨nodes, values, if opens then records + 1 else records⟩ rest

/-- Reads up to `batchSize` records. -/
def readRecords (batchSize : Nat) : EStateM Error (LeafColumn α) (ColumnBatch α × Nat) := fun c =>
  match readFrom batchSize ⟨.empty c.pattern, #[], 0⟩ c.column.rest with
  | .ok progress rest =>
    .ok (⟨progress.nodes.lists, progress.values.toList⟩, progress.records)
      { c with column := { c.column with rest } }
  | .error e rest => .error (.corrupt e) { c with column := { c.column with rest } }

def isAtEnd (c : LeafColumn α) : Bool := c.column.rest.isEmpty

end LeafColumn

/-- Several leaf columns that are read in lock step. -/
structure BatchReader (α : Type) where
  columns : List (LeafColumn α)
  /-- the most records of a batch -/
  batchSize : Nat
  /-- how many records have been read from every column -/
  recordsRead : Nat := 0

namespace BatchReader

/-- The number of records in a batch if nothing else is asked for. -/
def defaultBatchSize : Nat := 1024

/-- A reader at the start of the given columns. -/
def ofColumns (columns : List (LeafColumn α)) (batchSize : Nat) : Except Error (BatchReader α) :=
  if batchSize = 0 then .error (.invalidArgument .batchSizeZero)
  else if columns = [] then .error (.invalidArgument .noColumns)
  else .ok { columns, batchSize }

def isAtEnd (r : BatchReader α) : Bool := r.columns.all LeafColumn.isAtEnd

/-- Reads a batch from the columns in order, of which the first is column `index`. Each must give
`expected?` records, if that is known. Gives the columns as they are afterwards in any case, and
on success the batch of each with its number of records. -/
def readColumns (batchSize : Nat) (index : Nat) (expected? : Option Nat) :
    List (LeafColumn α) → List (LeafColumn α) × Except Error (List (ColumnBatch α × Nat))
  | [] => ([], .ok [])
  | c :: rest =>
    match LeafColumn.readRecords batchSize c with
    | .error e c => (c :: rest, .error e)
    | .ok (batch, records) c =>
      let expected := expected?.getD records
      if records ≠ expected then
        (c :: rest, .error (.fault (.recordCount index records expected)))
      else
        let (rest, batches) := readColumns batchSize (index + 1) (some expected) rest
        (c :: rest, ((batch, records) :: ·) <$> batches)

/-- Reads a batch from every column. On failure some columns may have been read further than
others. -/
def readBatch : EStateM Error (BatchReader α) (RecordBatch α) := fun r =>
  let (columns, batches) := readColumns r.batchSize 0 none r.columns
  let r := { r with columns }
  match batches with
  | .error e => .error e r
  | .ok batches =>
    let recordCount := (batches.head?.map Prod.snd).getD 0
    .ok ⟨batches.map Prod.fst, recordCount, r.isAtEnd⟩
      { r with recordsRead := r.recordsRead + recordCount }

/-- Reads batches until no column has entries left, at most `fuel` of them. -/
def readAllFrom (seen : Array (RecordBatch α)) : Nat → EStateM Error (BatchReader α)
    (List (RecordBatch α))
  | 0 => return seen.toList
  | fuel + 1 => do
    if ← modifyGet fun r => (r.isAtEnd, r) then return seen.toList
    let batch ← readBatch
    readAllFrom (seen.push batch) fuel

/-- Reads batches until no column has entries left. A batch that is read in front of the end takes
at least one entry of some column, so there are no more batches than entries. -/
def readAll : EStateM Error (BatchReader α) (List (RecordBatch α)) := fun r =>
  readAllFrom #[] (r.columns.flatMap fun c => c.column.rest).length r

end BatchReader

end WireColumns
