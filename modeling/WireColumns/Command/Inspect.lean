import WireColumns.Command.Failure
import WireColumns.Text.Quoted
import WireColumns.Text.Utf8
import WireColumns.Wire.Field

/-! # Inspecting messages

Every field occurrence of a message is shown on a line of its own, with the position of its
payload, its number, its wire type and what the payload holds. Below a group stand the fields in
it, one level further in.
-/

namespace WireColumns.Inspect

/-- The longest text that is shown in full, in bytes. -/
def maxPreview : Nat := 48

/-- Where a text is cut: at the last place up to `maxPreview` where a character starts. -/
def previewCut (text : Bytes) : Nat :=
  ((List.range (maxPreview + 1)).reverse.find? (Utf8.isBoundary text)).getD 0

/-- The text in a payload, in quotes and cut if it is long. -/
def preview (payload : Bytes) : String :=
  match Utf8.decode? payload with
  | none => s!"{payload.length} bytes, not UTF-8"
  | some text =>
    if payload.length ≤ maxPreview then String.ofList (Text.quote text)
    else
      let shown := (Utf8.decode? (payload.take (previewCut payload))).getD []
      String.ofList (Text.quote shown) ++ s!"... ({payload.length} bytes)"

/-- A hexadecimal number with the given number of digits. -/
def hexadecimal (width n : Nat) : String := String.ofList ('0' :: 'x' :: Text.hexPadded width n)

/-- The lines so far, and the position reached in the current message or group. -/
structure Dump where
  lines : Array String := #[]
  position : Nat := 0

/-- Adds a line. -/
def addLine (line : String) : EStateM Corruption Dump Unit :=
  modify fun d => { d with lines := d.lines.push line }

/-- Moves to a position and gives the one before. -/
def moveTo (position : Nat) : EStateM Corruption Dump Nat :=
  modifyGet fun d => (d.position, { d with position })

mutual

/-- Adds the line of a field, and the lines of the fields in it if it is a group. -/
def dumpField (fuel depth : Nat) (isVerbose : Bool) (f : Field) :
    EStateM Corruption Dump Unit := do
  let start ← moveTo 0
  let offset := start + f.lead.length
  let indent := String.ofList (List.replicate (2 * depth) ' ')
  let title := s!"{indent}@{offset} field {f.tag.number} {f.tag.wire.name}"
  match f.tag.wire with
  | .varint =>
    let value ← MonadExcept.ofExcept (Read.varint.eval f.payload)
    addLine s!"{title}: {value}"
  | .fixed32 =>
    let value ← MonadExcept.ofExcept (Read.fixed32.eval f.payload)
    addLine s!"{title}: {hexadecimal 8 value.toNat}"
  | .fixed64 =>
    let value ← MonadExcept.ofExcept (Read.fixed64.eval f.payload)
    addLine s!"{title}: {hexadecimal 16 value.toNat}"
  | .lengthDelimited =>
    let data ← MonadExcept.ofExcept (Read.lengthDelimited.eval f.payload)
    addLine (if isVerbose then s!"{title}: {preview data}" else s!"{title}: {data.length} bytes")
  | .startGroup =>
    let contents ← MonadExcept.ofExcept (Read.group.eval f.payload)
    addLine s!"{title}: {contents.length} bytes"
    dumpFields fuel (depth + 1) isVerbose contents
  | .endGroup => addLine title
  let _ ← moveTo (offset + f.payload.length)

/-- Adds the lines of the fields in a message or group. Each group is shorter than what it stands
in, so its length is fuel enough. -/
def dumpFields : Nat → Nat → Bool → Bytes → EStateM Corruption Dump Unit
  | 0, _, _, _ => return
  | fuel + 1, depth, isVerbose, message =>
    (Walk.ofMessage message).visit (dumpField fuel depth isVerbose)

end

/-- Adds the lines of message `index`. -/
def dumpMessage (isVerbose : Bool) (lines : Array String) (index : Nat) (message : Bytes) :
    Except Failure (Array String) :=
  let header := s!"message {index} ({message.length} bytes)"
  match dumpFields (message.length + 1) 1 isVerbose message { lines := lines.push header } with
  | .ok _ dump => .ok dump.lines
  | .error e _ => .error ⟨s!"Malformed message {index}", [(Error.corrupt e).message]⟩

/-- The lines of the first `count` messages. -/
def dumpMessages (messages : List Bytes) (count : Nat) (isVerbose : Bool) :
    Except Failure (List String) :=
  ((messages.take count).zipIdx.foldlM
    (fun lines (message, index) => dumpMessage isVerbose lines index message) #[]).map
    Array.toList

end WireColumns.Inspect
