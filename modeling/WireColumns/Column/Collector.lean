import WireColumns.Column.Basic
import WireColumns.Wire.Field

/-! # Collectors

A collector gathers the values of one field over the messages of a batch. A repeated field keeps
them all, a singular one the last per parent.
-/

namespace WireColumns

/-- The values of one field found so far, each with its parent. -/
structure Collector where
  number : UInt32
  kind : FieldKind
  repeated : Bool
  entries : Array (Value × Int)
  deriving DecidableEq, Repr, Inhabited

namespace Collector

/-- A collector without values. -/
def ofSpec (spec : FieldSpec) : Collector := ⟨spec.number, spec.kind, spec.repeated, #[]⟩

/-- A collector of values of the given type, which must be that of the field. -/
def ofSpecTyped (type : ValueType) (spec : FieldSpec) : Except Error Collector :=
  if spec.kind.valueType = type then .ok (ofSpec spec)
  else .error (.invalidArgument (.notCollectable spec.number spec.kind type))

def size (c : Collector) : Nat := c.entries.size

def isEmpty (c : Collector) : Bool := c.size == 0

/-- Adds a value. For a singular field it takes the place of a value of the same parent. -/
def commit (c : Collector) (value : Value) (parent : Int) : Collector :=
  if !c.repeated && (c.entries.back?.map Prod.snd == some parent) then
    { c with entries := c.entries.pop.push (value, parent) }
  else { c with entries := c.entries.push (value, parent) }

/-- Adds values of one parent in order. -/
def commitAll (c : Collector) (values : List Value) (parent : Int) : Collector :=
  values.foldl (fun c value => c.commit value parent) c

/-- Drops all but the first `n` values. -/
def truncate (c : Collector) (n : Nat) : Collector := { c with entries := c.entries.shrink n }

/-- Adds what an occurrence of the field holds. The values in front of the one that cannot be
read are added too. -/
def consume (wire : WireType) (payload : Bytes) (parent : Int) :
    EStateM Corruption Collector Unit := fun c =>
  let reading := c.kind.interpret wire payload
  match reading.failure? with
  | none => .ok () (c.commitAll reading.values parent)
  | some e => .error e (c.commitAll reading.values parent)

/-- Adds what all occurrences of the field in a message hold. -/
def consumeMessage (message : Bytes) (parent : Int) : EStateM Corruption Collector Unit :=
  (Walk.ofMessage message).visit fun f => do
    if f.tag.number = (← get).number then consume f.tag.wire f.payload parent

/-- The column of the values found. -/
def toColumn (c : Collector) (ownership : Ownership) : Column :=
  { type := c.kind.valueType
    ownership
    values := c.entries.toList.map Prod.fst
    parents := c.entries.toList.map Prod.snd }

/-- The collector as it was before it found any value. -/
def clear (c : Collector) : Collector := { c with entries := #[] }

end Collector

end WireColumns
