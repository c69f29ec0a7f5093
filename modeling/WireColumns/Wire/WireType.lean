/-! # Wire types

The low three bits of a tag say how the payload behind it is delimited. Six of the eight values
are in use.
-/

namespace WireColumns

/-- How the payload of a field occurrence is delimited. -/
inductive WireType
  /-- a base-128 number -/
  | varint
  /-- eight bytes -/
  | fixed64
  /-- a length and that many bytes -/
  | lengthDelimited
  /-- fields up to the matching end of the group -/
  | startGroup
  /-- nothing: the tag closes a group -/
  | endGroup
  /-- four bytes -/
  | fixed32
  deriving DecidableEq, Repr, Inhabited

namespace WireType

/-- Every wire type, in the order of their bits. -/
def all : List WireType := [varint, fixed64, lengthDelimited, startGroup, endGroup, fixed32]

/-- The bits of a wire type in a tag. -/
def bits : WireType → UInt32
  | varint => 0
  | fixed64 => 1
  | lengthDelimited => 2
  | startGroup => 3
  | endGroup => 4
  | fixed32 => 5

/-- The wire type with the given bits; 6 and 7 are reserved. -/
def ofBits? (bits : UInt32) : Option WireType :=
  all.find? (·.bits == bits)

def name : WireType → String
  | varint => "varint"
  | fixed64 => "fixed64"
  | lengthDelimited => "length_delimited"
  | startGroup => "start_group"
  | endGroup => "end_group"
  | fixed32 => "fixed32"

@[simp] theorem ofBits?_bits (w : WireType) : ofBits? w.bits = some w := by
  cases w <;> rfl

end WireType

end WireColumns
