import WireColumns.Column.MapDecoder
import WireColumns.Json.Basic
import WireColumns.Schema.FieldSpec

/-! # Configurations in JSON

Requests and options can be given as JSON. A structure is an object with its fields by name, or
an array with its fields in order; unknown names are passed over, a name given twice is refused,
and fields at the end of an array may be missing if they have a default. An alternative is given
by its name, or as an object with the name as its only member and null for its value. Only a field
that may be left out may be null. Numbers are integers in the range of their field.
-/

namespace WireColumns

namespace Json

/-- An integer below `bound`. -/
def toNat? (bound : Nat) : Json → Option Nat
  | integer n => if 0 ≤ n ∧ n < bound then some n.toNat else none
  | _ => none

def toUInt32? (j : Json) : Option UInt32 := (j.toNat? UInt32.size).map UInt32.ofNat

/-- A size or place, which is a number of 64 bits. -/
def toSize? (j : Json) : Option Nat := j.toNat? UInt64.size

def toBool? : Json → Option Bool
  | bool b => some b
  | _ => none

def toText? : Json → Option String
  | string text? => text?
  | _ => none

def toList? {α : Type} (read : Json → Option α) : Json → Option (List α)
  | array items => items.mapM read
  | _ => none

/-- One of several alternatives, told by its name. -/
def toAlternative? {α : Type} (ofName? : String → Option α) : Json → Option α
  | string (some name) => ofName? name
  | object [(some name, null)] => ofName? name
  | _ => none

/-- What stands for each of the named fields of a structure, if anything does. -/
def toFields? (names : List String) : Json → Option (List (Option Json))
  | object fields =>
    if fields.any (·.1.isNone) then none
    else names.mapM fun name =>
      match members name fields with
      | [] => some none
      | [value] => some (some value)
      | _ => none
  | array items =>
    if names.length < items.length then none
    else some (items.map some ++ List.replicate (names.length - items.length) none)
  | _ => none

/-- A field that must be there. -/
def required {α : Type} (read : Json → Option α) (field? : Option Json) : Option α :=
  field?.bind read

/-- A field with a default. -/
def withDefault {α : Type} (value : α) (read : Json → Option α) : Option Json → Option α
  | none => some value
  | some j => read j

/-- A field that may be left out or null. -/
def optional {α : Type} (read : Json → Option α) : Option Json → Option (Option α)
  | none => some none
  | some null => some none
  | some j => (read j).map some

end Json

namespace CorruptPolicy

def name : CorruptPolicy → String
  | fail => "fail"
  | skip => "skip"

def ofName? : String → Option CorruptPolicy
  | "fail" => some fail
  | "skip" => some skip
  | _ => none

end CorruptPolicy

namespace Ownership

def name : Ownership → String
  | borrowed => "borrowed"
  | owned => "owned"

def ofName? : String → Option Ownership
  | "borrowed" => some borrowed
  | "owned" => some owned
  | _ => none

end Ownership

def FieldKind.ofJson? : Json → Option FieldKind := Json.toAlternative? FieldKind.ofName?

def ValueType.ofJson? : Json → Option ValueType := Json.toAlternative? ValueType.ofName?

def Ownership.ofJson? : Json → Option Ownership := Json.toAlternative? Ownership.ofName?

namespace FieldSpec

def ofJson? (j : Json) : Option FieldSpec := do
  match ← j.toFields? ["number", "kind", "repeated", "output", "value_type"] with
  | [number, kind, repeated, output, valueType] =>
    some {
      number := ← Json.required Json.toUInt32? number
      kind := ← Json.required FieldKind.ofJson? kind
      repeated := ← Json.withDefault false Json.toBool? repeated
      output? := ← Json.optional Json.toSize? output
      valueType? := ← Json.optional ValueType.ofJson? valueType }
  | _ => none

/-- What may be left out is left out. -/
def toJson (spec : FieldSpec) : Json :=
  let always : List (String × Json) :=
    [("number", .integer spec.number.toNat), ("kind", .text spec.kind.name),
      ("repeated", .bool spec.repeated)]
  let output := spec.output?.toList.map fun (slot : Nat) => ("output", Json.integer slot)
  let valueType := spec.valueType?.toList.map fun type => ("value_type", Json.text type.name)
  .record (always ++ output ++ valueType)

end FieldSpec

namespace DecodeOptions

def ofJson? (j : Json) : Option DecodeOptions := do
  match ← j.toFields? ["on_corrupt", "ownership", "message_set_items"] with
  | [onCorrupt, ownership, messageSetItems] =>
    some {
      onCorrupt := ←
        Json.withDefault .fail (Json.toAlternative? CorruptPolicy.ofName?) onCorrupt
      ownership := ← Json.withDefault .borrowed Ownership.ofJson? ownership
      messageSetItems := ← Json.withDefault false Json.toBool? messageSetItems }
  | _ => none

def toJson (options : DecodeOptions) : Json :=
  .record [("on_corrupt", .text options.onCorrupt.name),
    ("ownership", .text options.ownership.name),
    ("message_set_items", .bool options.messageSetItems)]

end DecodeOptions

def MapConfig.ofJson? (j : Json) : Option MapConfig := do
  match ← j.toFields? ["key_kind", "value_kind", "keys", "ownership"] with
  | [keyKind, valueKind, keys, ownership] =>
    some {
      keyKind := ← Json.required FieldKind.ofJson? keyKind
      valueKind := ← Json.required FieldKind.ofJson? valueKind
      keys := ← Json.required (Json.toList? Json.toText?) keys
      ownership := ← Json.withDefault .borrowed Ownership.ofJson? ownership }
  | _ => none

/-- The fields to decode and the options of a batch. -/
structure DecodeConfig where
  fields : List FieldSpec
  options : DecodeOptions := {}
  deriving DecidableEq, Repr

def DecodeConfig.ofJson? (j : Json) : Option DecodeConfig := do
  match ← j.toFields? ["fields", "options"] with
  | [fields, options] =>
    some {
      fields := ← Json.required (Json.toList? FieldSpec.ofJson?) fields
      options := ← Json.withDefault {} DecodeOptions.ofJson? options }
  | _ => none

end WireColumns
