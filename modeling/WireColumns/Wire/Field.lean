import WireColumns.Wire.Read

/-! # Messages as lists of fields

A message is a sequence of field occurrences. `Walk.ofMessage` cuts a byte string into them and
says how the sequence ends: at the end of the input, at bytes that are no tag, or at a payload
that does not end. `Walk.visit` passes over the occurrences in order; a visitor also sees an
occurrence whose payload does not end, before the walk fails because of it.

A message may also be the contents of a group together with the tag that closes the group:
`Walk.untilEndGroup` is the walk up to that tag, behind which nothing may follow.
-/

namespace WireColumns

/-- One occurrence of a field. -/
structure Field where
  /-- the bytes of the tag -/
  lead : Bytes
  tag : Tag
  /-- the bytes behind the tag; those of a group include the tag that closes it -/
  payload : Bytes
  deriving DecidableEq, Repr

/-- The bytes of an occurrence. -/
def Field.bytes (f : Field) : Bytes := f.lead ++ f.payload

/-- How a sequence of field occurrences ends. -/
inductive Ending
  /-- nothing is left -/
  | complete
  /-- what is left is no field -/
  | malformed (cause : Corruption)
  /-- what is left is a tag with a payload that does not end; the payload is all that is left -/
  | badPayload (field : Field) (cause : Corruption)
  deriving DecidableEq, Repr

/-- The field occurrences in a byte string. -/
structure Walk where
  fields : List Field
  ending : Ending
  deriving DecidableEq, Repr

namespace Walk

/-- Walks on behind the occurrences in `seen`. -/
def walkFrom (seen : Array Field) (s : Bytes) : Walk :=
  if s.isEmpty then ⟨seen.toList, .complete⟩
  else
    match _hh : Read.header s with
    | .error e _ => ⟨seen.toList, .malformed e⟩
    | .ok (lead, tag) afterTag =>
      match _hp : Read.payload tag.wire afterTag with
      | .error e _ => ⟨seen.toList, .badPayload ⟨lead, tag, afterTag⟩ e⟩
      | .ok payload rest => walkFrom (seen.push ⟨lead, tag, payload⟩) rest
termination_by s.length
decreasing_by
  exact Nat.lt_of_le_of_lt (Read.payload_length_le _hp) (Read.header_advances _hh)

/-- The field occurrences of a message. -/
def ofMessage (message : Bytes) : Walk := walkFrom #[] message

/-- Passes over the occurrences in order and fails if the walk does not end properly. -/
def visit {m : Type → Type} [Monad m] [MonadExceptOf Corruption m] (w : Walk)
    (visitor : Field → m Unit) : m Unit := do
  w.fields.forM visitor
  match w.ending with
  | .complete => return
  | .malformed e => throw e
  | .badPayload f e =>
    visitor f
    throw e

/-- The walk up to the first tag that closes a group, which must be the last of the message. -/
def untilEndGroup (w : Walk) : Walk :=
  match w.fields.span (·.tag.wire != .endGroup) with
  | (_, []) => w
  | (fields, _ :: after) =>
    if after = [] ∧ w.ending = .complete then ⟨fields, .complete⟩
    else ⟨fields, .malformed .bytesAfterEndGroup⟩

end Walk

end WireColumns
