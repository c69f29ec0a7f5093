import WireColumns.Column.Dispatcher

/-! # Decoders

A decoder turns batches of messages into columns, one for each requested field. It is made once
from the requested fields, which it keeps sorted by field number, and can be used for any number
of batches. The message at position `i` of a batch has index `i` in every column.
-/

namespace WireColumns

/-- A requested field and the output slot of its column. -/
structure Request where
  spec : FieldSpec
  slot : Nat
  deriving DecidableEq, Repr

/-- A set of requested fields and the options for decoding them. -/
structure Decoder where
  /-- sorted by field number -/
  requests : List Request
  options : DecodeOptions
  deriving DecidableEq, Repr

/-- The columns of a batch of messages. -/
structure Batch where
  /-- field number of each column -/
  numbers : List UInt32
  columns : List Column
  messageCount : Nat
  /-- how many of the messages were skipped because they are corrupt -/
  corruptCount : Nat
  deriving DecidableEq, Repr

namespace Decoder

/-- The first number that equals the one before it. -/
def duplicate? : List UInt32 → Option UInt32
  | m :: n :: rest => if m = n then some m else duplicate? (n :: rest)
  | _ => none

/-- Checks that every output slot is below `count` and none is taken twice; `taken` are the slots
of the requests in front. -/
def checkSlots (count : Nat) (taken : List Nat) : List Request → Except Error Unit
  | [] => .ok ()
  | r :: rest =>
    if count ≤ r.slot then
      .error (.invalidArgument (.outputOutOfRange r.slot r.spec.number count))
    else if r.slot ∈ taken then .error (.invalidArgument (.duplicateOutput r.slot))
    else checkSlots count (r.slot :: taken) rest

/-- The requests for a list of fields. A field without an output slot takes its place in the
list. -/
def requestsOf (fields : List FieldSpec) : List Request :=
  fields.mapIdx fun i spec => ⟨spec, spec.output?.getD i⟩

/-- The decoder for the given fields. Each field must be acceptable by itself; no number may occur
twice; and the output slots must be a permutation of the places in the list. The three are checked
in this order. -/
def ofFields (fields : List FieldSpec) (options : DecodeOptions) : Except Error Decoder := do
  fields.forM FieldSpec.validate
  let requests := (requestsOf fields).mergeSort fun a b => decide (a.spec.number ≤ b.spec.number)
  match duplicate? (requests.map (·.spec.number)) with
  | some number => throw (.invalidArgument (.duplicateField number))
  | none =>
    checkSlots requests.length [] requests
    return ⟨requests, options⟩

/-- What belongs to the requests, put in the order of their output slots. -/
def inOutputOrder {α : Type} (d : Decoder) (items : List α) : List α :=
  (((d.requests.map Request.slot).zip items).mergeSort fun a b => decide (a.1 ≤ b.1)).map Prod.snd

/-- The requested fields in output order, each with its output slot. -/
def fields (d : Decoder) : List FieldSpec :=
  d.inOutputOrder (d.requests.map fun r => { r.spec with output? := some r.slot })

def fieldCount (d : Decoder) : Nat := d.requests.length

/-- What has been collected from the first messages of a batch. -/
structure Session where
  collectors : Array Collector
  messageCount : Nat := 0
  corruptCount : Nat := 0

/-- The state in front of the first message. -/
def start (d : Decoder) : Session :=
  { collectors := (d.requests.map fun r => Collector.ofSpec r.spec).toArray }

/-- Decodes the next message. -/
def consume (d : Decoder) (session : Session) (message : Bytes) : Except Corruption Session :=
  let ⟨collectors, messageCount, corruptCount⟩ := session
  match d.options.onCorrupt with
  | .fail =>
    match Collector.dispatchMessage d.options.messageSetItems message messageCount collectors with
    | .ok _ collectors => .ok ⟨collectors, messageCount + 1, corruptCount⟩
    | .error e _ => .error e
  | .skip =>
    let (collectors, isCorrupt) := Collector.dispatchOrDrop d.options.messageSetItems message
      messageCount (Collector.sizes collectors) collectors
    .ok ⟨collectors, messageCount + 1, if isCorrupt then corruptCount + 1 else corruptCount⟩

/-- The batch of what a session has collected. -/
def finish (d : Decoder) (session : Session) : Batch :=
  { numbers := d.inOutputOrder (d.requests.map (·.spec.number))
    columns := d.inOutputOrder
      (session.collectors.toList.map fun c => c.toColumn d.options.ownership)
    messageCount := session.messageCount
    corruptCount := session.corruptCount }

/-- Decodes a batch of messages. -/
def decode (d : Decoder) (messages : List Bytes) : Except Error Batch :=
  match messages.foldlM d.consume d.start with
  | .ok session => .ok (d.finish session)
  | .error e => .error (.corrupt e)

end Decoder

end WireColumns
