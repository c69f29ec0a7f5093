import WireColumns.Column.Basic
import WireColumns.Decimal.Literal
import WireColumns.Text.Blank
import WireColumns.Wire.Field

/-! # Map entries

A map is written as a repeated message with the key in field 1 and the value in field 2, its
entries. A map decoder looks for certain keys and gives one column for each, with the values found
under that key. Of several keys or values in one entry the last one counts. An entry without a key
is corrupt; one without a value, or with a key nobody asked for, contributes nothing.
-/

namespace WireColumns

/-- The keys to look for. A key is given as a literal: a decimal integer, `0` or `1` for a truth
value, or the string itself. -/
structure MapConfig where
  keyKind : FieldKind
  valueKind : FieldKind
  keys : List String
  ownership : Ownership := .borrowed
  deriving DecidableEq, Repr

/-- The keys to look for, read from their literals. -/
structure MapDecoder where
  keyKind : FieldKind
  valueKind : FieldKind
  /-- the key of each column -/
  keys : List Value
  ownership : Ownership
  deriving DecidableEq, Repr

namespace MapDecoder

def keyNumber : UInt32 := 1

def valueNumber : UInt32 := 2

/-! ## Keys -/

/-- The number an integer literal stands for, blanks around it aside. -/
def parseIntegerKey (f : Decimal.IntegerFormat) (literal : String) : Except Error Int :=
  match Decimal.parseInteger f (Text.trim literal.toList) with
  | .ok n => .ok n
  | .error _ => .error (.invalidArgument (.badIntegerKey literal))

def parseBoolKey (literal : String) : Except Error Bool :=
  if literal = "0" then .ok false
  else if literal = "1" then .ok true
  else .error (.invalidArgument (.badBoolKey literal))

/-- How the literals of keys of a kind are read; `none` for kinds that cannot be keys. -/
def keyParser? : FieldKind → Option (String → Except Error Value)
  | .int32 | .sint32 | .sfixed32 => some fun s =>
    (fun n => .int32 (.ofInt n)) <$> parseIntegerKey .int32 s
  | .uint32 | .fixed32 => some fun s =>
    (fun n => .uint32 (.ofNat n.toNat)) <$> parseIntegerKey .uint32 s
  | .int64 | .sint64 | .sfixed64 => some fun s =>
    (fun n => .int64 (.ofInt n)) <$> parseIntegerKey .int64 s
  | .uint64 | .fixed64 => some fun s =>
    (fun n => .uint64 (.ofNat n.toNat)) <$> parseIntegerKey .uint64 s
  | .bool => some fun s => .bool <$> parseBoolKey s
  | .string => some fun s => .ok (.bytes s.toUTF8.toList)
  | _ => none

/-- The decoder for a configuration. Values cannot be groups; that is checked before the keys. -/
def ofConfig (config : MapConfig) : Except Error MapDecoder :=
  if config.valueKind = .group then .error (.invalidArgument .groupAsMapValue)
  else
    match keyParser? config.keyKind with
    | none => .error (.invalidArgument (.notMapKey config.keyKind))
    | some parse => do
      let keys ← config.keys.mapM parse
      return ⟨config.keyKind, config.valueKind, keys, config.ownership⟩

/-- The column of a key: the last place where it is listed. -/
def slot? (d : MapDecoder) (key : Value) : Option Nat :=
  (d.keys.reverse.findIdx? (· == key)).map fun i => d.keys.length - 1 - i

/-! ## Values -/

/-- The values found in one call, a list for each key, and the value of the entry being read. -/
structure SlotValues where
  /-- the last value of the entry being read; what an entry leaves here is dropped at the next -/
  current? : Option Value
  values : Array (Array Value)
  parents : Array (Array Int)
  deriving DecidableEq, Repr

namespace SlotValues

def empty (keys : Nat) : SlotValues := ⟨none, .replicate keys #[], .replicate keys #[]⟩

/-- Forgets the value of the entry before. -/
def reset (s : SlotValues) : SlotValues := { s with current? := none }

/-- Moves the current value, if there is one, to the end of a list. The place is one that `slot?`
gives, so there is a list at it. -/
def commit (s : SlotValues) (slot : Nat) (parent : Int) : SlotValues :=
  match s.current? with
  | none => s
  | some value =>
    { current? := none
      values := s.values.modify slot (·.push value)
      parents := s.parents.modify slot (·.push parent) }

/-- One column for each list. -/
def toColumns (s : SlotValues) (type : ValueType) (ownership : Ownership) : List Column :=
  s.values.toList.zipWith (fun values parents => ⟨type, ownership, values.toList, parents.toList⟩)
    s.parents.toList

end SlotValues

/-! ## Entries -/

/-- How far an entry has been read. -/
structure EntryState where
  slots : SlotValues
  keyFound : Bool := false
  /-- the column of the last key, if it was asked for -/
  slot? : Option Nat := none
  deriving DecidableEq, Repr

/-- The value of an occurrence of the key field. -/
def readKey (d : MapDecoder) (f : Field) : Except Corruption Value :=
  if f.tag.wire ≠ d.keyKind.wireType then
    .error (.mapKey (.wireTypeMismatch f.tag.wire d.keyKind))
  else
    match d.keyKind.read.eval f.payload with
    | .ok key => .ok key
    | .error e => .error (.mapKey e)

/-- The value of an occurrence of the value field. -/
def readValue (d : MapDecoder) (f : Field) : Except Corruption Value :=
  if f.tag.wire ≠ d.valueKind.wireType then
    .error (.mapValueWireType f.tag.wire d.valueKind.wireType)
  else d.valueKind.read.eval f.payload

/-- Looks a key up and takes note of a value. Later ones replace earlier ones. -/
def consumeField (d : MapDecoder) (f : Field) : EStateM Corruption EntryState Unit := do
  if f.tag.number = keyNumber then
    let key ← MonadExcept.ofExcept (d.readKey f)
    modify fun e => { e with keyFound := true, slot? := d.slot? key }
  else if f.tag.number = valueNumber then
    let value ← MonadExcept.ofExcept (d.readValue f)
    modify fun e => { e with slots := { e.slots with current? := some value } }

/-- Adds the value of an entry, if it has one, to the list of its key, if that was asked for. The
entry comes with its parent. -/
def consumeEntry (d : MapDecoder) (s : SlotValues) :
    Bytes × Int → Except Corruption SlotValues
  | (entry, parent) =>
    match (Walk.ofMessage entry).visit d.consumeField { slots := s.reset } with
    | .error cause _ => .error cause
    | .ok _ e =>
      if !e.keyFound then .error .entryWithoutKey
      else
        match e.slot? with
        | none => .ok e.slots
        | some slot => .ok (e.slots.commit slot parent)

/-- Decodes entries, each of which belongs to the parent at its place, into one column per key. -/
def decode (d : MapDecoder) (entries : List Bytes) (parents : List Int) :
    Except Error (List Column) :=
  if entries.length ≠ parents.length then
    .error (.invalidArgument (.entryParentCount parents.length entries.length))
  else
    match (entries.zip parents).foldlM d.consumeEntry (.empty d.keys.length) with
    | .error cause => .error (.corrupt cause)
    | .ok s => .ok (s.toColumns d.valueKind.valueType d.ownership)

end MapDecoder

end WireColumns
