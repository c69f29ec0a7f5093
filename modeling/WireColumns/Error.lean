import WireColumns.Schema.FieldKind
import WireColumns.Nesting.Repetition

/-! # Errors

An error is a cause. `Corruption` lists what can be wrong with input bytes or levels,
`Misuse` what can be wrong with an argument; `Error` adds the remaining classes. The wording
is in one place, `Error.message`.
-/

namespace WireColumns

/-- What is wrong with the input. -/
inductive Corruption
  /-- a varint holds bits beyond the 64th -/
  | varintOverflow
  /-- ten bytes of a varint all announce a further one -/
  | varintTooLong
  /-- the input ends inside a varint -/
  | varintTruncated
  /-- a varint that must fit 32 bits does not -/
  | varint32Overflow
  /-- the input ends inside a varint that must fit 32 bits -/
  | varint32Truncated
  /-- fewer than four bytes are left -/
  | fixed32Truncated
  /-- fewer than eight bytes are left -/
  | fixed64Truncated
  /-- a tag has one of the two reserved wire types -/
  | reservedWireType (tag : UInt32)
  /-- a tag has field number 0 -/
  | fieldNumberZero
  /-- a length prefix reaches beyond the input -/
  | lengthTooLarge (declared : UInt32) (remaining : Nat)
  /-- the input ends inside a group -/
  | unclosedGroup
  /-- an occurrence does not have the wire type of the kind it is read as -/
  | wireTypeMismatch (found : WireType) (kind : FieldKind)
  /-- an occurrence read as a packed run is not length-delimited -/
  | notLengthDelimited (found : WireType)
  /-- the type id of a message-set item is 0 -/
  | itemTypeIdZero
  /-- a message-set item has no type id -/
  | itemWithoutTypeId
  /-- a message-set item has no message -/
  | itemWithoutMessage
  /-- bytes follow the END_GROUP tag that ends a message -/
  | bytesAfterEndGroup
  /-- the key of a map entry cannot be read -/
  | mapKey (cause : Corruption)
  /-- the value of a map entry has the wrong wire type -/
  | mapValueWireType (found expected : WireType)
  /-- a map entry has no key -/
  | entryWithoutKey
  /-- a level entry continues under a parent that was never opened -/
  | orphanLevels (definition repetition : Int16) (step : Nat)
  deriving DecidableEq, Repr

namespace Corruption

/-- The part of the input that is corrupt. -/
def place : Corruption → String
  | varintOverflow | varintTooLong | varintTruncated => "varint"
  | varint32Overflow | varint32Truncated => "varint32"
  | fixed32Truncated => "fixed32"
  | fixed64Truncated => "fixed64"
  | reservedWireType _ | fieldNumberZero => "tag"
  | lengthTooLarge _ _ => "length-delimited"
  | unclosedGroup => "group"
  | wireTypeMismatch _ _ => "field"
  | notLengthDelimited _ => "packed field"
  | itemTypeIdZero | itemWithoutTypeId | itemWithoutMessage => "message set item"
  | bytesAfterEndGroup => "end_group"
  | mapKey _ | mapValueWireType _ _ | entryWithoutKey => "map entry"
  | orphanLevels _ _ _ => "levels"

/-- What is wrong there. -/
def detail : Corruption → String
  | varintOverflow => "value overflows 64 bits"
  | varintTooLong => "encoding longer than 10 bytes"
  | varintTruncated | varint32Truncated | fixed32Truncated | fixed64Truncated =>
    "unexpected end of input"
  | varint32Overflow => "value overflows 32 bits"
  | reservedWireType tag => s!"invalid wire type {tag % 8} in tag {tag}"
  | fieldNumberZero => "field number 0"
  | lengthTooLarge declared remaining =>
    s!"declared length {declared} exceeds remaining {remaining} bytes"
  | unclosedGroup => "missing END_GROUP tag"
  | wireTypeMismatch found kind => s!"wire type {found.name} does not match {kind.name} field"
  | notLengthDelimited found => s!"wire type {found.name} is not length-delimited"
  | itemTypeIdZero => "type id 0"
  | itemWithoutTypeId => "missing type id"
  | itemWithoutMessage => "missing message"
  | bytesAfterEndGroup => "reader.remaining_slice().is_empty()"
  | mapKey cause => s!"corrupted key field: corrupt input in {cause.place}: {cause.detail}"
  | mapValueWireType found expected =>
    s!"value field has wire type {found.name}, expected {expected.name}"
  | entryWithoutKey => "key field not found"
  | orphanLevels definition repetition step =>
    s!"entry ({definition}, {repetition}) has no parent at step {step}"

end Corruption

/-- What is wrong with an argument. -/
inductive Misuse
  /-- values of this kind cannot be packed -/
  | notPackable (kind : FieldKind)
  /-- values of this kind have another type -/
  | notProduced (kind : FieldKind) (type : ValueType)
  /-- a field's values have another type than its collector -/
  | notCollectable (number : UInt32) (kind : FieldKind) (type : ValueType)
  | unknownFieldKind (name : String)
  | fieldNumberOutOfRange (number : UInt32)
  /-- a field is declared with another value type than its kind produces -/
  | valueTypeMismatch (number : UInt32) (kind : FieldKind) (declared : ValueType)
  | duplicateField (number : UInt32)
  | duplicateOutput (slot : Nat)
  | outputOutOfRange (slot : Nat) (number : UInt32) (fields : Nat)
  | unsortedCollectors
  | groupAsMapValue
  | notMapKey (kind : FieldKind)
  /-- a map key literal is no integer of the key's type -/
  | badIntegerKey (literal : String)
  | badBoolKey (literal : String)
  | entryParentCount (parents entries : Nat)
  | valueParentCount (parents values : Nat)
  /-- a parent index is smaller than the one before it, or too large -/
  | badParentIndex (parent : Int) (position parents : Nat)
  | unknownRepetition (name : String)
  | rootNotRepeated (root : Repetition)
  | patternTooDeep (steps : Nat)
  | levelColumnLengths (definitions repetitions : Nat)
  | tooFewValues
  | tooManyValues
  | batchSizeZero
  | noColumns
  /-- a column given as the named join argument is not sorted -/
  | unsorted (argument : String)
  | columnNameCount (names columns : Nat)
  | fieldNameCount (names fields : Nat)
  deriving DecidableEq, Repr

namespace Misuse

/-- The argument that is wrong. -/
def argument : Misuse → String
  | notPackable _ | notProduced _ _ | notCollectable _ _ _ => "kind"
  | unknownFieldKind _ => "field_kind"
  | fieldNumberOutOfRange _ => "number"
  | valueTypeMismatch _ _ _ => "value_type"
  | duplicateField _ => "fields"
  | duplicateOutput _ | outputOutOfRange _ _ _ => "output"
  | unsortedCollectors => "collectors"
  | groupAsMapValue => "value_kind"
  | notMapKey _ => "key_kind"
  | badIntegerKey _ | badBoolKey _ => "keys"
  | entryParentCount _ _ | valueParentCount _ _ | badParentIndex _ _ _ => "parent_indices"
  | unknownRepetition _ => "repetition_type"
  | rootNotRepeated _ | patternTooDeep _ => "repetition_pattern"
  | levelColumnLengths _ _ => "repetition_levels"
  | tooFewValues | tooManyValues => "values"
  | batchSizeZero => "batch_size"
  | noColumns => "columns"
  | unsorted argument => argument
  | columnNameCount _ _ | fieldNameCount _ _ => "names"

/-- What is wrong with it. -/
def detail : Misuse → String
  | notPackable kind => s!"{kind.name} fields cannot be packed"
  | notProduced kind type => s!"{kind.name} fields do not produce {type.name} values"
  | notCollectable number kind type =>
    s!"field {number} of kind {kind.name} cannot be collected as {type.name}"
  | unknownFieldKind name => s!"unknown field kind '{name}'"
  | fieldNumberOutOfRange number => s!"field number {number} is out of range"
  | valueTypeMismatch number kind declared =>
    s!"field {number} of kind {kind.name} produces {kind.valueType.name} values, " ++
      s!"not {declared.name}"
  | duplicateField number => s!"field {number} is requested more than once"
  | duplicateOutput slot => s!"output slot {slot} is used more than once"
  | outputOutOfRange slot number fields =>
    s!"output slot {slot} of field {number} is out of range for {fields} fields"
  | unsortedCollectors => "collectors must be sorted by unique field number"
  | groupAsMapValue => "group fields cannot be map values"
  | notMapKey kind => s!"{kind.name} fields cannot be map keys"
  | badIntegerKey literal => s!"failed to parse '{literal}' as an integer"
  | badBoolKey literal => s!"failed to parse '{literal}' as a bool, expected '0' or '1'"
  | entryParentCount parents entries => s!"{parents} parent indices for {entries} map entries"
  | valueParentCount parents values => s!"{parents} parent indices for {values} values"
  | badParentIndex parent position parents =>
    s!"parent index {parent} at {position} is decreasing or not below {parents}"
  | unknownRepetition name => s!"unknown repetition type '{name}'"
  | rootNotRepeated root => s!"the root step must be repeated, got {root.name}"
  | patternTooDeep steps => s!"{steps} steps exceed the maximum level"
  | levelColumnLengths definitions repetitions =>
    s!"{definitions} definition levels but {repetitions} repetition levels"
  | tooFewValues => "fewer values than present entries"
  | tooManyValues => "more values than present entries"
  | batchSizeZero => "options.batch_size > 0"
  | noColumns => "at least one column is required"
  | unsorted _ => "column is not sorted"
  | columnNameCount names columns => s!"{names} names for {columns} columns"
  | fieldNameCount names fields => s!"{names} names for {fields} fields"

end Misuse

/-- A state that correct callers never bring about. -/
inductive Fault
  /-- a payload is read twice, or before any field -/
  | nothingPending
  /-- level lists of different lengths -/
  | levelLengths (definitions repetitions : Nat)
  /-- a column has another number of records than those before it -/
  | recordCount (column records expected : Nat)
  /-- an output slot never received its column -/
  | missingOutput (slot : Nat)
  deriving DecidableEq, Repr

namespace Fault

def detail : Fault → String
  | nothingPending => "field payload was already consumed or no field is current"
  | levelLengths definitions repetitions =>
    s!"{definitions} definition levels but {repetitions} repetition levels"
  | recordCount column records expected =>
    s!"column {column} has {records} records in this batch, expected {expected}"
  | missingOutput slot => s!"output {slot} was not produced"

end Fault

/-- Why an operation gave no result. -/
inductive Error
  /-- the input is malformed -/
  | corrupt (cause : Corruption)
  /-- an argument is not acceptable -/
  | invalidArgument (cause : Misuse)
  /-- a repetition pattern without any step -/
  | emptyPattern
  /-- an inconsistency on the caller's side -/
  | fault (cause : Fault)
  /-- a level column is read past its last entry -/
  | endOfColumn
  /-- a list array cannot be built of the items and offsets -/
  | listArrayRefused
  /-- a table cannot be built of the columns -/
  | tableRefused
  deriving DecidableEq, Repr

namespace Error

def message : Error → String
  | corrupt cause => s!"corrupt input in {cause.place}: {cause.detail}"
  | invalidArgument cause => s!"invalid argument {cause.argument}: {cause.detail}"
  | emptyPattern =>
    "argument repetition_pattern out of range: a repetition pattern needs at least the root step"
  | fault cause => s!"internal error: {cause.detail}"
  | endOfColumn => "reached end of column"
  | listArrayRefused => "Arrow error: new list array"
  | tableRefused => "Arrow error: new record batch"

def isCorrupt : Error → Bool
  | corrupt _ => true
  | _ => false

end Error

end WireColumns
