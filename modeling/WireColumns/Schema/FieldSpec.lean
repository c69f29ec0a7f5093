import WireColumns.Wire.Tag

/-! # Requested fields and options

A `FieldSpec` requests one field of every message of a batch; `DecodeOptions` hold for the batch
as a whole.
-/

namespace WireColumns

/-- Reads the name of a kind. -/
def FieldKind.parse (name : String) : Except Error FieldKind :=
  match ofName? name with
  | some kind => .ok kind
  | none => .error (.invalidArgument (.unknownFieldKind name))

/-- A field to extract from every message. -/
structure FieldSpec where
  number : UInt32
  kind : FieldKind
  /-- whether every value of a message is kept, or the last one only -/
  repeated : Bool := false
  /-- where the field's column goes; by default the field's place in the request -/
  output? : Option Nat := none
  /-- the value type the caller expects -/
  valueType? : Option ValueType := none
  deriving DecidableEq, Repr, Inhabited

namespace FieldSpec

/-- Checks the number first, then the expected value type. -/
def validate (spec : FieldSpec) : Except Error Unit :=
  if spec.number = 0 ∨ Tag.maxNumber < spec.number then
    .error (.invalidArgument (.fieldNumberOutOfRange spec.number))
  else
    match spec.valueType? with
    | none => .ok ()
    | some type =>
      if type = spec.kind.valueType then .ok ()
      else .error (.invalidArgument (.valueTypeMismatch spec.number spec.kind type))

end FieldSpec

/-- What happens to a batch when one of its messages is corrupt. -/
inductive CorruptPolicy
  /-- the batch fails -/
  | fail
  /-- the message contributes nothing and is counted -/
  | skip
  deriving DecidableEq, Repr, Inhabited

/-- Whether the byte strings of a column are views into the messages or copies. -/
inductive Ownership
  | borrowed
  | owned
  deriving DecidableEq, Repr, Inhabited

/-- Options of a batch. -/
structure DecodeOptions where
  onCorrupt : CorruptPolicy := .fail
  ownership : Ownership := .borrowed
  /-- whether groups of field number 1 are items of a message set, each standing for the field
  its type id names -/
  messageSetItems : Bool := false
  deriving DecidableEq, Repr, Inhabited

end WireColumns
