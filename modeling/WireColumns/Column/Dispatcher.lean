import WireColumns.Column.Collector
import WireColumns.Wire.MessageSet

/-! # Dispatch

The occurrences of a message go to the collectors of the requested fields. The collectors are
sorted by field number. While the numbers of the occurrences ascend, as they usually do, the place
of the collector only moves forward (`Dispatch.seek`); a number below the previous one starts the
search afresh.

With message-set items switched on, a group of field number 1 is never an ordinary field: it goes
to the field that its type id names.
-/

namespace WireColumns

/-- The collectors of a batch, and the place reached among them within one message. -/
structure Dispatch where
  collectors : Array Collector
  /-- number of the last ordinary occurrence -/
  lastNumber : UInt32 := 0
  /-- place of the first collector whose number is not below that -/
  next : Nat := 0

namespace Dispatch

/-- The first place, from `place` on, of a collector whose number is at least `number`. -/
def seek (number : UInt32) (collectors : Array Collector) (place : Nat) : Nat :=
  if h : place < collectors.size then
    if collectors[place].number < number then seek number collectors (place + 1) else place
  else place

/-- Gives an occurrence to the collector at a place, if there is one. -/
def deliver (place : Nat) (wire : WireType) (payload : Bytes) (index : Int) :
    EStateM Corruption Dispatch Unit := fun d =>
  match d.collectors[place]? with
  | none => .ok () d
  | some c =>
    let reading := c.kind.interpret wire payload
    let d := { d with collectors := d.collectors.modify place (·.commitAll reading.values index) }
    match reading.failure? with
    | none => .ok () d
    | some e => .error e d

/-- Gives an occurrence of an ordinary field to its collector. -/
def routeField (f : Field) (index : Int) : EStateM Corruption Dispatch Unit := do
  let number := f.tag.number
  modify fun d =>
    let start := if number < d.lastNumber then 0 else d.next
    { d with lastNumber := number, next := seek number d.collectors start }
  let found := fun d : Dispatch => (d.collectors[d.next]?.map Collector.number) == some number
  if ← modifyGet fun d => (found d, d) then
    deliver (← modifyGet fun d => (d.next, d)) f.tag.wire f.payload index

/-- Gives the message of a message-set item to the collector of the field it stands for. -/
def routeItem (payload : Bytes) (index : Int) : EStateM Corruption Dispatch Unit := do
  let contents ← MonadExcept.ofExcept (Read.group.eval payload)
  let item ← MonadExcept.ofExcept (MessageSetItem.parse contents)
  let place? ← modifyGet fun d => (d.collectors.findIdx? (·.number == item.typeId), d)
  match place? with
  | none => return
  | some place => deliver place .lengthDelimited item.encoded index

/-- Gives one occurrence to the collector it is for. -/
def route (messageSetItems : Bool) (index : Int) (f : Field) :
    EStateM Corruption Dispatch Unit :=
  if messageSetItems && f.tag == Tag.messageSetItem then routeItem f.payload index
  else routeField f index

end Dispatch

namespace Collector

/-- Whether the collectors' numbers ascend strictly. -/
def areSorted (collectors : List Collector) : Bool :=
  match collectors with
  | c :: d :: rest => decide (c.number < d.number) && areSorted (d :: rest)
  | _ => true

/-- Checks that collectors can be searched by field number. -/
def requireSorted (collectors : List Collector) : Except Error Unit :=
  if areSorted collectors then .ok () else .error (.invalidArgument .unsortedCollectors)

/-- Gives every occurrence in a message to the collector it is for. The first failure ends the
message; what has been collected by then stays. -/
def dispatchMessage (messageSetItems : Bool) (message : Bytes) (index : Int) :
    EStateM Corruption (Array Collector) Unit := fun collectors =>
  let walk := (Walk.ofMessage message).untilEndGroup
  match walk.visit (Dispatch.route messageSetItems index) { collectors } with
  | .ok _ d => .ok () d.collectors
  | .error e d => .error e d.collectors

/-- How many values each collector has. -/
def sizes (collectors : Array Collector) : List Nat := collectors.toList.map size

/-- Drops from each collector the values behind the given number of them. Collectors without a
number stay as they are. -/
def truncateAll (collectors : Array Collector) (sizes : List Nat) : Array Collector :=
  collectors.mapIdx fun i c =>
    match sizes[i]? with
    | some n => c.truncate n
    | none => c

/-- Dispatches a message to collectors that have the given numbers of values. If the message turns
out to be corrupt, what has been collected from it is dropped again. Also tells which of the two
was the case. -/
@[noinline] def dispatchOrDrop (messageSetItems : Bool) (message : Bytes) (index : Int)
    (sizes : List Nat) (collectors : Array Collector) : Array Collector × Bool :=
  match dispatchMessage messageSetItems message index collectors with
  | .ok _ collectors => (collectors, false)
  | .error _ collectors => (truncateAll collectors sizes, true)

end Collector

end WireColumns
