import WireColumns.Column.Decoder
import WireColumns.Command.Failure
import WireColumns.Json.Printer
import WireColumns.Schema.Config
import WireColumns.Text.Utf8
import WireColumns.Wire.Delimited

/-! # Decoding a stream to JSON -/

namespace WireColumns

/-- The messages of a stream. -/
def Delimited.splitOrFail (stream : Bytes) : Except Failure (List Bytes) :=
  match split stream with
  | .ok messages => .ok messages
  | .error bad =>
    .error
      ⟨s!"Malformed message length at offset {bad.offset}", [(Error.corrupt bad.cause).message]⟩

/-- A byte string appears as a text if it is one in UTF-8, and as its bytes otherwise. -/
def Value.toJson : Value → Json
  | bool b => .bool b
  | int32 n => .integer n.toInt
  | uint32 n => .integer n.toNat
  | int64 n => .integer n.toInt
  | uint64 n => .integer n.toNat
  | float bits => Json.ofFloat bits
  | double bits => Json.ofDouble bits
  | bytes s =>
    match Utf8.decode? s with
    | some text => .text (String.ofList text)
    | none => .array (s.map fun b => .integer b.toNat)

/-- What is printed of a column. -/
def Column.toJson (c : Column) (spec : FieldSpec) : Json :=
  .record [("field", .integer spec.number.toNat), ("kind", .text spec.kind.name),
    ("values", .array (c.values.map Value.toJson)),
    ("parent_indices", .array (c.parents.map .integer))]

namespace DecodeConfig

/-- The columns of the messages in a stream. -/
def decodeStream (config : DecodeConfig) (stream : Bytes) : Except Failure Json :=
  match Decoder.ofFields config.fields config.options with
  | .error e => .error ⟨"Invalid field configuration", [e.message]⟩
  | .ok decoder => do
    let messages ← Delimited.splitOrFail stream
    match decoder.decode messages with
    | .error e => .error ⟨"Failed to decode messages", [e.message]⟩
    | .ok batch =>
      let columns := List.zipWith (fun spec c => c.toJson spec) decoder.fields batch.columns
      return .record [("num_messages", .integer batch.messageCount),
        ("corrupt_messages", .integer batch.corruptCount), ("columns", .array columns)]

end DecodeConfig

end WireColumns
