import WireColumns.Wire.Fixed
import WireColumns.Wire.Tag
import WireColumns.Wire.Varint
import WireColumns.Wire.ZigZag

/-! # Writing messages

A `Message` is a message under construction: the encodings of its field occurrences, kept apart so
that they can be put together in another order. How a number and the key in front of a payload are
written is up to an `Encoder`.
-/

namespace WireColumns

/-- The encoded field occurrences of a message. -/
structure Message where
  occurrences : List Bytes
  deriving DecidableEq, Repr, Inhabited

/-- Writes numbers and keys. -/
class Encoder where
  varint : UInt64 → Bytes
  /-- the field number and the wire type in front of a payload -/
  key : UInt32 → WireType → Bytes

/-- Writes every number in as few bytes as it takes. -/
instance Encoder.shortest : Encoder where
  varint value := Varint.encode value.toNat
  key number wire := Varint.encode (Tag.toRaw ⟨number, wire⟩).toNat

namespace Message

def empty : Message := ⟨[]⟩

/-- Adds an encoded occurrence. -/
def push (m : Message) (occurrence : Bytes) : Message := ⟨m.occurrences ++ [occurrence]⟩

/-- The occurrences one after the other. -/
def build (m : Message) : Bytes := m.occurrences.flatten

/-- The occurrences from the last to the first. -/
def buildReversed (m : Message) : Bytes := m.occurrences.reverse.flatten

variable [Encoder]

/-! ## Single values -/

def varint (m : Message) (number : UInt32) (value : UInt64) : Message :=
  m.push (Encoder.key number .varint ++ Encoder.varint value)

/-- Negative numbers are extended to 64 bits. -/
def int32 (m : Message) (number : UInt32) (value : Int32) : Message :=
  m.varint number value.toInt64.toUInt64

def int64 (m : Message) (number : UInt32) (value : Int64) : Message :=
  m.varint number value.toUInt64

def uint32 (m : Message) (number : UInt32) (value : UInt32) : Message :=
  m.varint number value.toUInt64

def uint64 (m : Message) (number : UInt32) (value : UInt64) : Message :=
  m.varint number value

def sint32 (m : Message) (number : UInt32) (value : Int32) : Message :=
  m.varint number (ZigZag.encode32 value).toUInt64

def sint64 (m : Message) (number : UInt32) (value : Int64) : Message :=
  m.varint number (ZigZag.encode64 value)

def bool (m : Message) (number : UInt32) (value : Bool) : Message :=
  m.varint number value.toUInt64

def fixed32 (m : Message) (number : UInt32) (value : UInt32) : Message :=
  m.push (Encoder.key number .fixed32 ++ Fixed.encode 4 value.toBitVec)

def fixed64 (m : Message) (number : UInt32) (value : UInt64) : Message :=
  m.push (Encoder.key number .fixed64 ++ Fixed.encode 8 value.toBitVec)

def sfixed32 (m : Message) (number : UInt32) (value : Int32) : Message :=
  m.fixed32 number value.toUInt32

def sfixed64 (m : Message) (number : UInt32) (value : Int64) : Message :=
  m.fixed64 number value.toUInt64

/-- A floating-point number is given by its bits. -/
def float (m : Message) (number : UInt32) (bits : UInt32) : Message :=
  m.fixed32 number bits

/-- A floating-point number is given by its bits. -/
def double (m : Message) (number : UInt32) (bits : UInt64) : Message :=
  m.fixed64 number bits

/-! ## Byte strings and nested messages -/

def bytes (m : Message) (number : UInt32) (value : Bytes) : Message :=
  m.push (Encoder.key number .lengthDelimited ++ (Encoder.varint (.ofNat value.length) ++ value))

def string (m : Message) (number : UInt32) (value : String) : Message :=
  m.bytes number value.toUTF8.toList

/-- A nested message, with its length in front. -/
def message (m : Message) (number : UInt32) (value : Message) : Message :=
  m.bytes number value.build

/-- A nested message between two tags. -/
def group (m : Message) (number : UInt32) (contents : Message) : Message :=
  m.push (Encoder.key number .startGroup ++
    (contents.build ++ Encoder.key number .endGroup))

/-- An item of a message set that stands for field `typeId`. -/
def messageSetItem (m : Message) (typeId : UInt32) (value : Message) : Message :=
  m.group 1 ((empty.uint32 2 typeId).message 3 value)

/-! ## Packed runs -/

def packedVarints (m : Message) (number : UInt32) (values : List UInt64) : Message :=
  m.bytes number (values.flatMap Encoder.varint)

def packedFixed32 (m : Message) (number : UInt32) (values : List UInt32) : Message :=
  m.bytes number (values.flatMap fun v => Fixed.encode 4 v.toBitVec)

def packedFixed64 (m : Message) (number : UInt32) (values : List UInt64) : Message :=
  m.bytes number (values.flatMap fun v => Fixed.encode 8 v.toBitVec)

/-! ## Parts of messages -/

/-- A tag without a payload. -/
def bareTag (m : Message) (number : UInt32) (wire : WireType) : Message :=
  m.push (Encoder.key number wire)

end Message

end WireColumns
