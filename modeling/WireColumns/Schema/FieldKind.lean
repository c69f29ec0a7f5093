import WireColumns.Wire.WireType

/-! # Field kinds and value types

A schema declares every field with a *kind*. The kind fixes the wire type of a well-formed
occurrence, whether a run of values may share one length-delimited payload, and the type of the
values that come out.
-/

namespace WireColumns

/-- The type of the values in a column. -/
inductive ValueType
  | bool | int32 | uint32 | int64 | uint64 | float | double | bytes
  deriving DecidableEq, Repr, Inhabited

namespace ValueType

def all : List ValueType := [bool, int32, uint32, int64, uint64, float, double, bytes]

def name : ValueType → String
  | bool => "bool"
  | int32 => "int32"
  | uint32 => "uint32"
  | int64 => "int64"
  | uint64 => "uint64"
  | float => "float"
  | double => "double"
  | bytes => "bytes"

def ofName? (name : String) : Option ValueType := all.find? (·.name == name)

end ValueType

/-- The declared type of a field. -/
inductive FieldKind
  | double | float | int64 | uint64 | int32 | fixed64 | fixed32 | bool | string
  | group | message | bytes | uint32 | enum | sfixed32 | sfixed64 | sint32 | sint64
  deriving DecidableEq, Repr, Inhabited

namespace FieldKind

def all : List FieldKind :=
  [double, float, int64, uint64, int32, fixed64, fixed32, bool, string, group, message, bytes,
    uint32, enum, sfixed32, sfixed64, sint32, sint64]

def name : FieldKind → String
  | double => "double"
  | float => "float"
  | int64 => "int64"
  | uint64 => "uint64"
  | int32 => "int32"
  | fixed64 => "fixed64"
  | fixed32 => "fixed32"
  | bool => "bool"
  | string => "string"
  | group => "group"
  | message => "message"
  | bytes => "bytes"
  | uint32 => "uint32"
  | enum => "enum"
  | sfixed32 => "sfixed32"
  | sfixed64 => "sfixed64"
  | sint32 => "sint32"
  | sint64 => "sint64"

def ofName? (name : String) : Option FieldKind := all.find? (·.name == name)

/-- The wire type of an occurrence that holds one value. -/
def wireType : FieldKind → WireType
  | int32 | int64 | uint32 | uint64 | sint32 | sint64 | bool | enum => .varint
  | fixed32 | sfixed32 | float => .fixed32
  | fixed64 | sfixed64 | double => .fixed64
  | string | bytes | message => .lengthDelimited
  | group => .startGroup

/-- Whether values of this kind may be packed: written one after the other into a single
length-delimited payload. -/
def isPackable : FieldKind → Bool
  | string | bytes | message | group => false
  | _ => true

def valueType : FieldKind → ValueType
  | double => .double
  | float => .float
  | int64 | sfixed64 | sint64 => .int64
  | uint64 | fixed64 => .uint64
  | int32 | enum | sfixed32 | sint32 => .int32
  | uint32 | fixed32 => .uint32
  | bool => .bool
  | string | bytes | message | group => .bytes

/-- A packable kind is one whose single value is not itself length-delimited or a group. -/
theorem isPackable_iff (kind : FieldKind) :
    kind.isPackable = true ↔ kind.wireType ≠ .lengthDelimited ∧ kind.wireType ≠ .startGroup := by
  cases kind <;> decide

end FieldKind

end WireColumns
