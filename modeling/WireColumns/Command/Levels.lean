import WireColumns.Command.Failure
import WireColumns.Decimal.Literal
import WireColumns.Json.Basic
import WireColumns.Nesting.BatchReader

/-! # From levels to parent lists

Pairs of levels are written `definition:repetition`.
-/

namespace WireColumns.Levels

/-- Reads one level of a pair, blanks around it aside. -/
def parseLevel (pair which : String) (text : List Char) : Except Failure Int16 :=
  match Decimal.parseInteger .int16 (Text.trim text) with
  | .ok n => .ok (.ofInt n)
  | .error bad => .error ⟨s!"Invalid {which} level in '{pair}'", [bad.message]⟩

/-- Reads a pair of levels. -/
def parsePair (pair : String) : Except Failure (Int16 × Int16) :=
  match Text.splitOnce? ':' pair.toList with
  | none => .error ⟨s!"Expected 'definition:repetition', got '{pair}'", []⟩
  | some (definition, repetition) => do
    let definition ← parseLevel pair "definition" definition
    let repetition ← parseLevel pair "repetition" repetition
    return (definition, repetition)

/-- The lists of each step. -/
def listsToJson (lists : Array (Array Nat)) : Json :=
  .array (lists.toList.map fun list => .array (list.toList.map fun (n : Nat) => .integer n))

/-- The parent lists of all entries. -/
def allAtOnce (pattern : Pattern) (levels : List (Int16 × Int16)) : Except Failure Json :=
  match ParentLists.addAll levels (.empty pattern) with
  | .error e _ => .error ⟨(Error.corrupt e).message, []⟩
  | .ok _ nodes => .ok (.record [("parent_indices", listsToJson nodes.lists)])

/-- What is printed of a batch of the only column. -/
def batchToJson (batch : RecordBatch Unit) : Json :=
  let lists := (batch.columns.head?.map ColumnBatch.parents).getD #[]
  .record [("num_records", .integer batch.recordCount), ("parent_indices", listsToJson lists)]

/-- The parent lists of batches with at most `batchSize` records. -/
def inBatches (pattern : Pattern) (levels : List (Int16 × Int16)) (batchSize : Nat) :
    Except Failure Json := do
  let entries : List (LevelEntry Unit) := levels.map fun (definition, repetition) =>
    ⟨definition, repetition, none⟩
  match BatchReader.ofColumns [⟨.ofEntries entries, pattern⟩] batchSize with
  | .error e => .error ⟨e.message, []⟩
  | .ok reader =>
    match BatchReader.readAll reader with
    | .error e _ => .error ⟨e.message, []⟩
    | .ok batches reader =>
      return .record [("num_records", .integer reader.recordsRead),
        ("batches", .array (batches.map batchToJson))]

/-- The parent lists of the given pairs, at once or in batches. -/
def toJson (pattern : String) (pairs : List String) (batchSize? : Option Nat) :
    Except Failure Json :=
  match Pattern.parse pattern with
  | .error e => .error ⟨s!"Invalid repetition pattern '{pattern}'", [e.message]⟩
  | .ok pattern => do
    let levels ← pairs.mapM parsePair
    match batchSize? with
    | none => allAtOnce pattern levels
    | some batchSize => inBatches pattern levels batchSize

end WireColumns.Levels
