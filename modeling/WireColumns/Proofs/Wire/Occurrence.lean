import Mathlib
import WireColumns.Wire.Field
import WireColumns.Wire.Message
import WireColumns.Wire.Value

/-! # Typed occurrences

A message as a list of field occurrences, each with a value of some kind (`Occurrence`), and the
writing of it with the method of that kind (`Occurrence.write`). What is written behind a tag is
the same for kinds that differ only in what the bits mean (`Raw`). -/

namespace WireColumns

/-- A value of a kind that has no fields of its own. -/
inductive Scalar
  | bool (value : Bool)
  | int32 (value : Int32)
  | enum (value : Int32)
  | sint32 (value : Int32)
  | sfixed32 (value : Int32)
  | uint32 (value : UInt32)
  | fixed32 (value : UInt32)
  | int64 (value : Int64)
  | sint64 (value : Int64)
  | sfixed64 (value : Int64)
  | uint64 (value : UInt64)
  | fixed64 (value : UInt64)
  | float (bits : UInt32)
  | double (bits : UInt64)
  | string (value : String)
  | bytes (value : Bytes)
  deriving DecidableEq, Repr

/-- The payload of an occurrence that is not a group. -/
inductive Raw
  | varint (word : UInt64)
  | fixed64 (word : UInt64)
  | fixed32 (word : UInt32)
  | delimited (data : Bytes)
  deriving DecidableEq, Repr

/-- A field occurrence with a value. The contents of nested messages and groups are occurrences
themselves. -/
inductive Occurrence
  | scalar (number : UInt32) (value : Scalar)
  | message (number : UInt32) (contents : List Occurrence)
  | group (number : UInt32) (contents : List Occurrence)
  deriving Repr

/-! ## Payloads -/

namespace Raw

def wire : Raw → WireType
  | varint _ => .varint
  | fixed64 _ => .fixed64
  | fixed32 _ => .fixed32
  | delimited _ => .lengthDelimited

/-- All the bytes behind the tag. -/
def payload [Encoder] : Raw → Bytes
  | varint word => Encoder.varint word
  | fixed64 word => Fixed.encode 8 word.toBitVec
  | fixed32 word => Fixed.encode 4 word.toBitVec
  | delimited data => Encoder.varint (.ofNat data.length) ++ data

/-- A length must fit 32 bits. -/
def Short : Raw → Prop
  | delimited data => data.length < 2 ^ 32
  | _ => True

end Raw

/-! ## Scalars -/

namespace Scalar

def kind : Scalar → FieldKind
  | bool _ => .bool
  | int32 _ => .int32
  | enum _ => .enum
  | sint32 _ => .sint32
  | sfixed32 _ => .sfixed32
  | uint32 _ => .uint32
  | fixed32 _ => .fixed32
  | int64 _ => .int64
  | sint64 _ => .sint64
  | sfixed64 _ => .sfixed64
  | uint64 _ => .uint64
  | fixed64 _ => .fixed64
  | float _ => .float
  | double _ => .double
  | string _ => .string
  | bytes _ => .bytes

/-- The value as it stands in a column. -/
def value : Scalar → Value
  | bool v => .bool v
  | int32 v | enum v | sint32 v | sfixed32 v => .int32 v
  | uint32 v | fixed32 v => .uint32 v
  | int64 v | sint64 v | sfixed64 v => .int64 v
  | uint64 v | fixed64 v => .uint64 v
  | float bits => .float bits
  | double bits => .double bits
  | string v => .bytes v.toUTF8.toList
  | bytes v => .bytes v

/-- Adds an occurrence to a message with the method of the value's kind. Numbers of enumerations
are written as `int32` ones. -/
def write [Encoder] (m : Message) (number : UInt32) : Scalar → Message
  | bool v => m.bool number v
  | int32 v | enum v => m.int32 number v
  | sint32 v => m.sint32 number v
  | sfixed32 v => m.sfixed32 number v
  | uint32 v => m.uint32 number v
  | fixed32 v => m.fixed32 number v
  | int64 v => m.int64 number v
  | sint64 v => m.sint64 number v
  | sfixed64 v => m.sfixed64 number v
  | uint64 v => m.uint64 number v
  | fixed64 v => m.fixed64 number v
  | float bits => m.float number bits
  | double bits => m.double number bits
  | string v => m.string number v
  | bytes v => m.bytes number v

/-- What stands behind the tag. -/
def raw : Scalar → Raw
  | bool v => .varint v.toUInt64
  | int32 v | enum v => .varint v.toInt64.toUInt64
  | sint32 v => .varint (ZigZag.encode32 v).toUInt64
  | sfixed32 v => .fixed32 v.toUInt32
  | uint32 v => .varint v.toUInt64
  | fixed32 v => .fixed32 v
  | int64 v => .varint v.toUInt64
  | sint64 v => .varint (ZigZag.encode64 v)
  | sfixed64 v => .fixed64 v.toUInt64
  | uint64 v => .varint v
  | fixed64 v => .fixed64 v
  | float bits => .fixed32 bits
  | double bits => .fixed64 bits
  | string v => .delimited v.toUTF8.toList
  | bytes v => .delimited v

theorem wire_raw (v : Scalar) : v.raw.wire = v.kind.wireType := by
  cases v <;> rfl

theorem write_eq [Encoder] (m : Message) (number : UInt32) (v : Scalar) :
    v.write m number = m.push (Encoder.key number v.kind.wireType ++ v.raw.payload) := by
  cases v <;> rfl

end Scalar

/-! ## Occurrences -/

namespace Occurrence

def number : Occurrence → UInt32
  | scalar n _ | message n _ | group n _ => n

def kind : Occurrence → FieldKind
  | scalar _ v => v.kind
  | message .. => .message
  | group .. => .group

variable [Encoder]

mutual

/-- Adds an occurrence to a message with the method of its kind. -/
def write (m : Message) : Occurrence → Message
  | scalar n v => v.write m n
  | message n contents => m.message n (writeAll .empty contents)
  | group n contents => m.group n (writeAll .empty contents)

/-- Adds occurrences in order. -/
def writeAll (m : Message) : List Occurrence → Message
  | [] => m
  | o :: rest => writeAll (write m o) rest

end

/-- The message with the given occurrences. -/
def encode (occurrences : List Occurrence) : Bytes := (writeAll .empty occurrences).build

/-- The value as it stands in a column. Of a nested message it is the bytes, of a group those
between its two tags. -/
def value : Occurrence → Value
  | scalar _ v => v.value
  | message _ contents | group _ contents => .bytes (encode contents)

/-- The numbers and the lengths in an occurrence are such as can be written. -/
inductive WellFormed : Occurrence → Prop
  | scalar {number value} : number ≠ 0 → number ≤ Tag.maxNumber → value.raw.Short →
    WellFormed (.scalar number value)
  | message {number contents} : number ≠ 0 → number ≤ Tag.maxNumber →
    (encode contents).length < 2 ^ 32 → (∀ o ∈ contents, WellFormed o) →
    WellFormed (.message number contents)
  | group {number contents} : number ≠ 0 → number ≤ Tag.maxNumber →
    (∀ o ∈ contents, WellFormed o) → WellFormed (.group number contents)

/-- What is read where an occurrence has been written. -/
def field (o : Occurrence) : Field where
  lead := Encoder.key o.number o.kind.wireType
  tag := ⟨o.number, o.kind.wireType⟩
  payload := match o with
    | scalar _ v => v.raw.payload
    | message _ contents => (Raw.delimited (encode contents)).payload
    | group n contents => encode contents ++ Encoder.key n .endGroup

theorem write_eq (m : Message) (o : Occurrence) : o.write m = m.push o.field.bytes := by
  cases o with
  | scalar n v => rw [write, Scalar.write_eq]; rfl
  | message n contents => rw [write]; rfl
  | group n contents => rw [write]; rfl

theorem build_writeAll (m : Message) (occurrences : List Occurrence) :
    (writeAll m occurrences).build =
      m.build ++ occurrences.flatMap fun o => o.field.bytes := by
  induction occurrences generalizing m with
  | nil => simp [writeAll]
  | cons o rest ih =>
    rw [writeAll, ih, write_eq, List.flatMap_cons, ← List.append_assoc]
    simp [Message.build, Message.push]

/-- A message is the bytes of its occurrences one after the other. -/
theorem encode_eq (occurrences : List Occurrence) :
    encode occurrences = occurrences.flatMap fun o => o.field.bytes := by
  rw [encode, build_writeAll]
  rfl

variable {o : Occurrence}

theorem WellFormed.number_ne_zero (h : o.WellFormed) : o.number ≠ 0 := by
  cases h with
  | scalar h | message h | group h => exact h

theorem WellFormed.number_le (h : o.WellFormed) : o.number ≤ Tag.maxNumber := by
  cases h with
  | scalar _ h | message _ h | group _ h => exact h

theorem wire_ne_endGroup (o : Occurrence) : o.field.tag.wire ≠ .endGroup := by
  change o.kind.wireType ≠ .endGroup
  cases o.kind <;> decide

end Occurrence

end WireColumns
