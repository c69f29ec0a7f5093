import WireColumns.Schema.FieldSpec
import WireColumns.Wire.Value

/-! # Columns

A column holds the values of one field over a batch of messages, in the order of their arrival,
and for each value the index of its parent, the message it was found in.
-/

namespace WireColumns

/-- Values of one type and the index of each one's parent. -/
structure Column where
  type : ValueType
  /-- told apart for byte strings only -/
  ownership : Ownership
  values : List Value
  parents : List Int
  deriving DecidableEq, Repr, Inhabited

namespace Column

def empty (type : ValueType) : Column := ⟨type, .borrowed, [], []⟩

/-- The column that no longer refers to the messages. -/
def toOwned (c : Column) : Column := { c with ownership := .owned }

/-- The byte string at a position. -/
def bytesAt? (c : Column) (i : Nat) : Option Bytes := c.values[i]?.bind Value.bytes?

/-- The number of values under each of the parents `0, …, parents - 1`. Values of other parents
are left out. -/
def valueCounts (c : Column) (parents : Nat) : Array Nat :=
  c.parents.foldl
    (fun counts p => if 0 ≤ p then counts.modify p.toNat (· + 1) else counts)
    (Array.replicate parents 0)

end Column

end WireColumns
