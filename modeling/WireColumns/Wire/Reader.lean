import WireColumns.Wire.Cursor
import WireColumns.Wire.Value

/-! # Pull readers

A reader walks over the tags of a message. The payload behind the current tag is *pending* until
it is read or skipped. It may be read once, in one of several ways; a read that fails leaves it
pending and the position where it was, and a payload nobody reads is skipped when the next tag is
asked for.
-/

namespace WireColumns

/-- A position in a message and the state of the field found there. -/
structure Reader where
  cursor : Cursor
  /-- wire type of the current field -/
  wire : WireType
  /-- whether the payload of the current field is still to be read -/
  pending : Bool

namespace Reader

/-- A computation that moves a reader. -/
abbrev Action := EStateM Error Reader

/-- A reader at the start of a message. -/
def ofMessage (message : Bytes) : Reader := ⟨.start message, .varint, false⟩

/-- A reader in front of a payload whose tag has been read elsewhere. -/
def ofPayload (payload : Bytes) (wire : WireType) : Reader := ⟨.start payload, wire, true⟩

def isAtEnd (r : Reader) : Bool := !r.pending && r.cursor.isAtEnd

/-- Moves behind the pending payload, if there is one. -/
def skip : Action Unit := fun r =>
  if r.pending then
    match r.cursor.run (Read.payload r.wire) with
    | (.ok _, cursor) => .ok () { r with cursor, pending := false }
    | (.error e, cursor) => .error (.corrupt e) { r with cursor }
  else .ok () r

/-- Reads the next tag, if any bytes are left. -/
def readTag : Action (Option Tag) := fun r =>
  if r.cursor.isAtEnd then .ok none r
  else
    match r.cursor.run Read.tag with
    | (.ok tag, cursor) => .ok (some tag) ⟨cursor, tag.wire, true⟩
    | (.error e, cursor) => .error (.corrupt e) { r with cursor }

/-- The next tag; `none` at the end of the message. -/
def nextTag : Action (Option Tag) := do
  skip
  readTag

/-- Takes the pending payload with `read`. On failure nothing is taken. -/
def take {α : Type} (read : Read α) : Action α := fun r =>
  if r.pending then
    match r.cursor.run read with
    | (.ok a, cursor) => .ok a { r with cursor, pending := false }
    | (.error e, _) => .error (.corrupt e) r
  else .error (.fault .nothingPending) r

/-- Reads the pending payload as a value of `kind`, which is to have the given type. -/
def readValue (type : ValueType) (kind : FieldKind) : Action Value := fun r =>
  if kind.valueType ≠ type then .error (.invalidArgument (.notProduced kind type)) r
  else if r.wire ≠ kind.wireType then .error (.corrupt (.wireTypeMismatch r.wire kind)) r
  else take kind.read r

/-- What keeps a payload from being a packed run of `kind` values of the given type. -/
def packedMisuse? (type : ValueType) (kind : FieldKind) : Option Misuse :=
  if !kind.isPackable then some (.notPackable kind)
  else if kind.valueType ≠ type then some (.notProduced kind type)
  else none

/-- Reads the pending payload as a packed run of `kind` values. The payload is taken even if the
kind turns out not to be suitable. -/
def readPacked (type : ValueType) (kind : FieldKind) : Action Reading := fun r =>
  if r.wire ≠ .lengthDelimited then .error (.corrupt (.notLengthDelimited r.wire)) r
  else
    match take Read.lengthDelimited r with
    | .error e r => .error e r
    | .ok payload r =>
      match packedMisuse? type kind with
      | some misuse => .error (.invalidArgument misuse) r
      | none => .ok (kind.readPacked payload) r

/-- All bytes of the pending payload. -/
def readRaw : Action Bytes := fun r => take (Read.payload r.wire) r

end Reader

end WireColumns
