import WireColumns.Column.Basic
import WireColumns.Ragged.Offsets
import WireColumns.Table.Arrays

/-! # Columns as list arrays

A column is turned into an array of its values, and the array regrouped into one list per parent, as
the columns of a table are.
-/

namespace WireColumns

/-- The type of the items that values of a type become. Byte strings of any kind are large binaries,
because nothing says that they are texts. -/
def ValueType.itemType : ValueType → ItemType
  | .bool => .boolean
  | .int32 => .int32
  | .uint32 => .uint32
  | .int64 => .int64
  | .uint64 => .uint64
  | .float => .float32
  | .double => .float64
  | .bytes => .largeBinary

/-- Items of the given type, none of which is null. -/
def ItemField.ofType (type : ItemType) : ItemField := ⟨"item", type, false⟩

/-- The values of a column as they are stored. Byte strings are either parts of the messages or
copies of their own. -/
inductive ColumnValues
  | bool (values : List Bool)
  | int32 (values : List Int32)
  | uint32 (values : List UInt32)
  | int64 (values : List Int64)
  | uint64 (values : List UInt64)
  | float (bits : List UInt32)
  | double (bits : List UInt64)
  | bytes (values : List Bytes)
  | ownedBytes (values : List Bytes)

/-- How the values of a column are stored. All of them have its type; others would be left out. -/
def Column.stored (c : Column) : ColumnValues :=
  match c.type, c.ownership with
  | .bool, _ => .bool (c.values.filterMap ItemType.boolean.native?)
  | .int32, _ => .int32 (c.values.filterMap ItemType.int32.native?)
  | .uint32, _ => .uint32 (c.values.filterMap ItemType.uint32.native?)
  | .int64, _ => .int64 (c.values.filterMap ItemType.int64.native?)
  | .uint64, _ => .uint64 (c.values.filterMap ItemType.uint64.native?)
  | .float, _ => .float (c.values.filterMap ItemType.float32.native?)
  | .double, _ => .double (c.values.filterMap ItemType.float64.native?)
  | .bytes, .borrowed => .bytes (c.values.filterMap ItemType.largeBinary.native?)
  | .bytes, .owned => .ownedBytes (c.values.filterMap ItemType.largeBinary.native?)

/-- A column whose values have become an array. -/
structure ArrayColumn where
  values : ItemArray
  parents : List Int
  deriving DecidableEq, Repr

variable [ArrayLibrary]

open ArrayLibrary

/-- The array of stored values. -/
def ColumnValues.toArray : ColumnValues → ItemArray
  | bool values => array .boolean values
  | int32 values => array .int32 values
  | uint32 values => array .uint32 values
  | int64 values => array .int64 values
  | uint64 values => array .uint64 values
  | float bits => array .float32 bits
  | double bits => array .float64 bits
  | bytes values => array .largeBinary values
  | ownedBytes values => array .largeBinary values

def Column.toArrays (c : Column) : ArrayColumn := ⟨c.stored.toArray, c.parents⟩

/-- The column regrouped into one list per parent. -/
def ArrayColumn.toListArray (c : ArrayColumn) (parentCount : Nat) : Except Error ListArray := do
  if c.values.items.length ≠ c.parents.length then
    throw (.invalidArgument (.valueParentCount c.parents.length c.values.items.length))
  let offsets ← listOffsets c.parents parentCount
  match listArray? (.ofType c.values.type) offsets c.values none with
  | some lists => return lists
  | none => throw .listArrayRefused

end WireColumns
