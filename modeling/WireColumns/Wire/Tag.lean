import WireColumns.Error

/-! # Tags

A tag stands in front of every payload. It holds the field number and, in its low three bits,
the wire type.
-/

namespace WireColumns

/-- A field number and the wire type of the payload that follows. -/
structure Tag where
  number : UInt32
  wire : WireType
  deriving DecidableEq, Repr, Inhabited

namespace Tag

/-- The largest field number a tag can hold. -/
def maxNumber : UInt32 := 536870911

/-- The tag with the given bits. The wire type is looked at before the number. -/
def ofRaw (raw : UInt32) : Except Corruption Tag :=
  match WireType.ofBits? (raw &&& 7) with
  | none => .error (.reservedWireType raw)
  | some wire =>
    if raw >>> 3 = 0 then .error .fieldNumberZero else .ok ⟨raw >>> 3, wire⟩

/-- The bits of a tag. A number above `maxNumber` loses its high bits. -/
def toRaw (tag : Tag) : UInt32 := tag.number <<< 3 ||| tag.wire.bits

/-- The tag that opens an item of a message set: a group with field number 1. -/
def messageSetItem : Tag := ⟨1, .startGroup⟩

end Tag

end WireColumns
