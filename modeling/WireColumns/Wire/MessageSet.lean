import WireColumns.Wire.Field
import WireColumns.Wire.Value

/-! # Message sets

A message set is a message with nothing but groups of field number 1, its *items*. An item names
in field 2 the field it stands for, and carries in field 3 the message that is its value. The
parts may come in either order; of several, the last one counts. Anything else in an item is
passed over, and so are the two parts when they have an unexpected wire type.
-/

namespace WireColumns

/-- One item of a message set. -/
structure MessageSetItem where
  /-- number of the field the item stands for -/
  typeId : UInt32
  /-- the message with its length prefix -/
  encoded : Bytes
  deriving DecidableEq, Repr

namespace MessageSetItem

def typeIdNumber : UInt32 := 2

def messageNumber : UInt32 := 3

/-- The parts of an item seen so far. -/
structure Parts where
  typeId? : Option UInt32 := none
  encoded? : Option Bytes := none

/-- Takes note of a part; a later one replaces an earlier one. -/
def noteField (f : Field) : EStateM Corruption Parts Unit := do
  if f.tag = ⟨typeIdNumber, .varint⟩ then
    let typeId ← MonadExcept.ofExcept (Read.varint.eval f.payload)
    modify fun parts => { parts with typeId? := some typeId.toUInt32 }
  else if f.tag = ⟨messageNumber, .lengthDelimited⟩ then
    modify fun parts => { parts with encoded? := some f.payload }

/-- The item made of the given parts. A type id 0 is reported before a missing message. -/
def ofParts (parts : Parts) : Except Corruption MessageSetItem :=
  match parts.typeId?, parts.encoded? with
  | none, _ => .error .itemWithoutTypeId
  | some typeId, encoded? =>
    if typeId = 0 then .error .itemTypeIdZero
    else
      match encoded? with
      | none => .error .itemWithoutMessage
      | some encoded => .ok ⟨typeId, encoded⟩

/-- The item with the given contents, which are what stands between its two tags. -/
def parse (contents : Bytes) : Except Corruption MessageSetItem :=
  match (Walk.ofMessage contents).visit noteField {} with
  | .ok _ parts => ofParts parts
  | .error e _ => .error e

/-- The message without its length prefix. -/
def message (item : MessageSetItem) : Except Corruption Bytes :=
  Read.lengthDelimited.eval item.encoded

end MessageSetItem

end WireColumns
