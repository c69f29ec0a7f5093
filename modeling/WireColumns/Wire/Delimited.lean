import WireColumns.Wire.Message
import WireColumns.Wire.Read

/-! # Streams of messages

In a stream every message follows its length.
-/

namespace WireColumns.Delimited

/-- A message that cannot be cut off a stream. -/
structure BadFrame where
  /-- where its length starts -/
  offset : Nat
  cause : Corruption
  deriving DecidableEq, Repr

/-- The stream of the given messages. -/
def join [Encoder] (messages : List Bytes) : Bytes :=
  messages.flatMap fun m => Encoder.varint (.ofNat m.length) ++ m

/-- Splits on at `offset`, behind the messages in `seen`. -/
def splitFrom (seen : Array Bytes) (offset : Nat) (s : Bytes) : Except BadFrame (List Bytes) :=
  if s.isEmpty then .ok seen.toList
  else
    match _h : Read.delimitedParts s with
    | .error e _ => .error ⟨offset, e⟩
    | .ok (lead, message) rest =>
      splitFrom (seen.push message) (offset + lead.length + message.length) rest
termination_by s.length
decreasing_by exact Read.delimitedParts_advances _h

/-- The messages of a stream. -/
def split (stream : Bytes) : Except BadFrame (List Bytes) := splitFrom #[] 0 stream

end WireColumns.Delimited
