import WireColumns.Wire.Value

/-! # Arrays and tables

The form in which columns are handed on: a table holds named columns of lists, and the lists of a
column are cut from one array of items by their offsets. What may be put together is checked where
it is built (`ArrayLibrary`): fields must be declared as what they hold, and columns must be equally
long.
-/

namespace WireColumns

/-- The type of items in an array. -/
inductive ItemType
  | boolean | int32 | uint32 | int64 | uint64 | float32 | float64 | largeBinary
  deriving DecidableEq, Repr, Inhabited

namespace ItemType

def name : ItemType → String
  | boolean => "Boolean"
  | int32 => "Int32"
  | uint32 => "UInt32"
  | int64 => "Int64"
  | uint64 => "UInt64"
  | float32 => "Float32"
  | float64 => "Float64"
  | largeBinary => "LargeBinary"

/-- What an item is given by. Of a floating-point number these are the bits. -/
def Native : ItemType → Type
  | boolean => Bool
  | int32 => Int32
  | uint32 => UInt32
  | int64 => Int64
  | uint64 => UInt64
  | float32 => UInt32
  | float64 => UInt64
  | largeBinary => Bytes

/-- The value that is an item of the type. -/
def value : (type : ItemType) → type.Native → Value
  | boolean => .bool
  | int32 => .int32
  | uint32 => .uint32
  | int64 => .int64
  | uint64 => .uint64
  | float32 => .float
  | float64 => .double
  | largeBinary => .bytes

/-- What a value is given by, if it is an item of the type. -/
def native? : (type : ItemType) → Value → Option type.Native
  | boolean, .bool v => some v
  | int32, .int32 v => some v
  | uint32, .uint32 v => some v
  | int64, .int64 v => some v
  | uint64, .uint64 v => some v
  | float32, .float bits => some bits
  | float64, .double bits => some bits
  | largeBinary, .bytes v => some v
  | _, _ => none

end ItemType

/-- Items of one type, some of which may be null. -/
structure ItemArray where
  type : ItemType
  items : List (Option Value)
  deriving DecidableEq, Repr

def ItemArray.nullCount (a : ItemArray) : Nat := a.items.countP Option.isNone

/-- What the items of lists are declared as. -/
structure ItemField where
  name : String
  type : ItemType
  nullable : Bool
  deriving DecidableEq, Repr

/-- Lists of items. -/
structure ListArray where
  item : ItemField
  /-- where the lists start, and at last where they end -/
  offsets : List Nat
  /-- the items of all lists -/
  values : ItemArray
  /-- which lists are not null, if any is -/
  validity? : Option (List Bool)
  deriving DecidableEq, Repr

namespace ListArray

/-- The number of lists. -/
def size (a : ListArray) : Nat := a.offsets.length - 1

def nullCount (a : ListArray) : Nat := (a.validity?.getD []).count false

/-- Cuts off the list of each length in turn. -/
def cut (seen : Array (List (Option Value))) :
    List Nat → List (Option Value) → List (List (Option Value))
  | [], _ => seen.toList
  | n :: lengths, items =>
    let (list, rest) := items.splitAt n
    cut (seen.push list) lengths rest

/-- The lists one by one. -/
def lists (a : ListArray) : List (List (Option Value)) :=
  cut #[] (List.zipWith (· - ·) a.offsets.tail a.offsets) a.values.items

end ListArray

/-- What a column of lists is declared as. -/
structure TableField where
  name : String
  item : ItemField
  nullable : Bool
  deriving DecidableEq, Repr

/-- A column of lists is what the field declares. -/
def TableField.Admits (f : TableField) (a : ListArray) : Prop :=
  a.item = f.item ∧ (f.nullable = true ∨ a.nullCount = 0)

instance (f : TableField) (a : ListArray) : Decidable (f.Admits a) :=
  inferInstanceAs (Decidable (_ ∧ _))

/-- Named columns of equal length. -/
structure Table where
  rowCount : Nat
  schema : List TableField
  columns : List ListArray
  deriving DecidableEq, Repr

/-- Builds arrays and tables, or refuses to. -/
class ArrayLibrary where
  array (type : ItemType) : List type.Native → ItemArray
  /-- the lists with the given offsets in an array; the last argument tells those that are not
  null -/
  listArray? : ItemField → List Nat → ItemArray → Option (List Bool) → Option ListArray
  table? : List TableField → List ListArray → Option Table

/-- Builds what passes the checks. A table needs a column, to tell how many rows it has. -/
instance ArrayLibrary.checked : ArrayLibrary where
  array type values := ⟨type, values.map fun v => some (type.value v)⟩
  listArray? item offsets values validity? :=
    if item.type = values.type ∧ (item.nullable = true ∨ values.nullCount = 0) ∧
        offsets ≠ [] ∧ (∀ pair ∈ offsets.zip offsets.tail, pair.1 ≤ pair.2) ∧
        (∀ offset ∈ offsets, offset ≤ values.items.length) ∧
        (∀ validity ∈ validity?, validity.length = offsets.length - 1)
    then some ⟨item, offsets, values, validity?⟩
    else none
  table?
    | _, [] => none
    | schema, first :: rest =>
      if schema.length = rest.length + 1 ∧
          (∀ pair ∈ schema.zip (first :: rest), pair.1.Admits pair.2) ∧
          (∀ a ∈ rest, a.size = first.size)
      then some ⟨first.size, schema, first :: rest⟩
      else none

end WireColumns
