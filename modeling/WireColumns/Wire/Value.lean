import WireColumns.Wire.Read
import WireColumns.Wire.ZigZag

/-! # Values

A `Value` is one decoded scalar or byte string. `FieldKind.read` reads the payload of an
occurrence of each kind; `FieldKind.interpret` gives every value an occurrence stands for, be it a
single one or a packed run.
-/

namespace WireColumns

/-- One decoded value. Floating-point numbers are kept as their bits. -/
inductive Value
  | bool (value : Bool)
  | int32 (value : Int32)
  | uint32 (value : UInt32)
  | int64 (value : Int64)
  | uint64 (value : UInt64)
  | float (bits : UInt32)
  | double (bits : UInt64)
  | bytes (value : Bytes)
  deriving DecidableEq, Repr, Inhabited

namespace Value

def type : Value → ValueType
  | bool _ => .bool
  | int32 _ => .int32
  | uint32 _ => .uint32
  | int64 _ => .int64
  | uint64 _ => .uint64
  | float _ => .float
  | double _ => .double
  | bytes _ => .bytes

/-- The byte string, if the value is one. -/
def bytes? : Value → Option Bytes
  | bytes value => some value
  | _ => none

end Value

namespace FieldKind

/-- Reads one value of the given kind. Varints of 32-bit kinds keep their low 32 bits: negative
numbers are extended to 64 bits where they are written. -/
def read : FieldKind → Read Value
  | bool => (fun v => .bool (v != 0)) <$> Read.varint
  | int32 | enum => (fun v => .int32 v.toUInt32.toInt32) <$> Read.varint
  | sint32 => (fun v => .int32 (ZigZag.decode32 v.toUInt32)) <$> Read.varint
  | sfixed32 => (fun v => .int32 v.toInt32) <$> Read.fixed32
  | uint32 => (fun v => .uint32 v.toUInt32) <$> Read.varint
  | fixed32 => .uint32 <$> Read.fixed32
  | int64 => (fun v => .int64 v.toInt64) <$> Read.varint
  | sint64 => (fun v => .int64 (ZigZag.decode64 v)) <$> Read.varint
  | sfixed64 => (fun v => .int64 v.toInt64) <$> Read.fixed64
  | uint64 => .uint64 <$> Read.varint
  | fixed64 => .uint64 <$> Read.fixed64
  | float => .float <$> Read.fixed32
  | double => .double <$> Read.fixed64
  | string | bytes | message => .bytes <$> Read.lengthDelimited
  | group => .bytes <$> Read.group

theorem read_advances (kind : FieldKind) : Read.Advances kind.read := by
  cases kind with
  | double | fixed64 | sfixed64 | float | fixed32 | sfixed32 =>
    exact ((Read.exactly_advances (by decide) _).map _).map _
  | string | bytes | message => exact Read.lengthDelimited_advances.map _
  | group => exact Read.group_advances.map _
  | _ => exact Read.varint_advances.map _

/-- The values of a kind have the kind's value type. -/
theorem type_of_read {kind : FieldKind} {s rest : Bytes} {v : Value}
    (h : kind.read s = .ok v rest) : v.type = kind.valueType := by
  cases kind <;>
    · obtain ⟨_, _, rfl⟩ := Read.map_eq_ok_iff.1 h
      rfl

end FieldKind

/-- The values found in an occurrence, and what ended them if it was not its end. -/
structure Reading where
  values : List Value
  failure? : Option Corruption
  deriving DecidableEq, Repr

/-- A packed run in which some values have been read. -/
structure PackedRun where
  kind : FieldKind
  /-- what is left of the payload -/
  rest : Bytes
  /-- a value could not be read, which ends the run -/
  failed : Bool := false

namespace PackedRun

/-- The packed run in `payload`, which is given without its length prefix. -/
def ofPayload (kind : FieldKind) (payload : Bytes) : PackedRun := ⟨kind, payload, false⟩

/-- The next value, or the reason why there is none to be read, and the run behind it. -/
def next? (run : PackedRun) : Option (Except Corruption Value × PackedRun) :=
  if run.failed ∨ run.rest = [] then none
  else
    match run.kind.read run.rest with
    | .ok value rest => some (.ok value, { run with rest })
    | .error e rest => some (.error e, { run with rest, failed := true })

/-- Reads on behind the values in `seen`. -/
def readFrom (kind : FieldKind) (seen : Array Value) (s : Bytes) : Reading :=
  if s.isEmpty then ⟨seen.toList, none⟩
  else
    match _h : kind.read s with
    | .ok value rest => readFrom kind (seen.push value) rest
    | .error e _ => ⟨seen.toList, some e⟩
termination_by s.length
decreasing_by exact kind.read_advances _h

end PackedRun

/-- All values of a packed run, up to the first that cannot be read. -/
def FieldKind.readPacked (kind : FieldKind) (payload : Bytes) : Reading :=
  PackedRun.readFrom kind #[] payload

/-- The values that an occurrence with the given wire type and payload has for a field of this
kind. With the kind's own wire type it has one value; with a length-delimited payload, a packable
kind has the values of a packed run; any other occurrence has none. -/
def FieldKind.interpret (kind : FieldKind) (wire : WireType) (payload : Bytes) : Reading :=
  if wire = kind.wireType then
    match kind.read.eval payload with
    | .ok value => ⟨[value], none⟩
    | .error e => ⟨[], some e⟩
  else if kind.isPackable ∧ wire = .lengthDelimited then
    match Read.lengthDelimited.eval payload with
    | .ok run => kind.readPacked run
    | .error e => ⟨[], some e⟩
  else ⟨[], none⟩

end WireColumns
