import WireColumns.Proofs.Wire.Encoder
import WireColumns.Proofs.Wire.Framing
import WireColumns.Proofs.Wire.Occurrence

/-! # Decoding typed occurrences

A well-formed occurrence is read back as it was written: its payload as a whole
(`Occurrence.WellFormed.reads_payload`), and from it the one value it has for a field of its kind
(`Occurrence.WellFormed.interpret_field`). A message is walked through as the list of its
occurrences (`Walk.ofMessage_encode`). -/

namespace WireColumns

open Encoder Read

/-! ## Scalars -/

theorem toUInt32_toUInt64_toInt64 (v : Int32) : v.toInt64.toUInt64.toUInt32.toInt32 = v := by
  have hbits : (v.toBitVec.signExtend 64).setWidth 32 = v.toBitVec := by
    ext i hi
    rw [BitVec.getElem_setWidth, BitVec.getLsbD_signExtend]
    simp [hi, show i < 64 by omega]
  exact Int32.toBitVec_inj.1 hbits

theorem reads_fixed32 (v : UInt32) : Reads fixed32 (Fixed.encode 4 v.toBitVec) v :=
  reads_fixed (n := 4) (by decide) UInt32.ofBitVec _ v.toBitVec

theorem reads_fixed64 (v : UInt64) : Reads fixed64 (Fixed.encode 8 v.toBitVec) v :=
  reads_fixed (n := 8) (by decide) UInt64.ofBitVec _ v.toBitVec

variable [Encoder] [LawfulEncoder]

theorem Raw.Short.reads_flatPayload {raw : Raw} (h : raw.Short) :
    Reads (flatPayload raw.wire) raw.payload raw.payload := by
  cases raw with
  | varint word => exact reads_rawVarint word
  | fixed64 word => exact reads_exactly (Fixed.encode 8 word.toBitVec) _
  | fixed32 word => exact reads_exactly (Fixed.encode 4 word.toBitVec) _
  | delimited data => exact (reads_delimitedParts h).map _

theorem reads_lengthDelimited {data : Bytes} (h : data.length < 2 ^ 32) :
    Reads lengthDelimited (Raw.delimited data).payload data := (reads_delimitedParts h).map _

theorem Scalar.reads_value (v : Scalar) (h : v.raw.Short) :
    Reads v.kind.read v.raw.payload v.value := by
  cases v with
  | bool v =>
    have hv : (v.toUInt64 != 0) = v := by cases v <;> rfl
    have hread := (reads_varint v.toUInt64).map fun w => Value.bool (w != 0)
    rw [hv] at hread
    exact hread
  | int32 v | enum v =>
    have hread := (reads_varint v.toInt64.toUInt64).map fun w => Value.int32 w.toUInt32.toInt32
    rw [toUInt32_toUInt64_toInt64] at hread
    exact hread
  | sint32 v =>
    have hread := (reads_varint (ZigZag.encode32 v).toUInt64).map fun w =>
      Value.int32 (ZigZag.decode32 w.toUInt32)
    rw [UInt32.toUInt32_toUInt64, ZigZag.decode32_encode32] at hread
    exact hread
  | sfixed32 v => exact (reads_fixed32 v.toUInt32).map fun w => Value.int32 w.toInt32
  | uint32 v =>
    have hread := (reads_varint v.toUInt64).map fun w => Value.uint32 w.toUInt32
    rw [UInt32.toUInt32_toUInt64] at hread
    exact hread
  | fixed32 v => exact (reads_fixed32 v).map Value.uint32
  | int64 v => exact (reads_varint v.toUInt64).map fun w => Value.int64 w.toInt64
  | sint64 v =>
    have hread := (reads_varint (ZigZag.encode64 v)).map fun w => Value.int64 (ZigZag.decode64 w)
    rw [ZigZag.decode64_encode64] at hread
    exact hread
  | sfixed64 v => exact (reads_fixed64 v.toUInt64).map fun w => Value.int64 w.toInt64
  | uint64 v => exact (reads_varint v).map Value.uint64
  | fixed64 v => exact (reads_fixed64 v).map Value.uint64
  | float bits => exact (reads_fixed32 bits).map Value.float
  | double bits => exact (reads_fixed64 bits).map Value.double
  | string v => exact (reads_lengthDelimited h).map Value.bytes
  | bytes v => exact (reads_lengthDelimited h).map Value.bytes

/-! ## Occurrences -/

namespace Occurrence

variable {o : Occurrence}

theorem WellFormed.reads_header (h : o.WellFormed) :
    Reads header o.field.lead (o.field.lead, o.field.tag) :=
  Encoder.reads_header h.number_ne_zero h.number_le _

theorem reads_flatPayload_scalar {v : Scalar} (h : v.raw.Short) :
    Reads (flatPayload v.kind.wireType) v.raw.payload v.raw.payload := by
  rw [← v.wire_raw]
  exact h.reads_flatPayload

/-- Reading past an occurrence, nested groups included, leaves the open groups alone. -/
theorem WellFormed.passes (h : o.WellFormed) : Passes o.field.bytes := by
  induction h with
  | @scalar number v hpos hle hshort =>
    have hstart : v.kind.wireType ≠ .startGroup := by cases v <;> exact nofun
    exact passes_flat (Encoder.reads_header hpos hle _) (reads_flatPayload_scalar hshort) hstart
      (wire_ne_endGroup (.scalar number v))
  | @message number contents hpos hle hshort =>
    have hraw : (Raw.delimited (encode contents)).Short := hshort
    have hpayload := hraw.reads_flatPayload
    exact passes_flat (Encoder.reads_header hpos hle _) hpayload nofun nofun
  | group hpos hle hcontents ih =>
    refine passes_group (Encoder.reads_header hpos hle _) ?_ (Encoder.reads_header hpos hle _)
    rw [encode_eq]
    exact passes_flatMap ih

theorem reads_groupParts_encode {number : UInt32} {contents : List Occurrence}
    (hpos : number ≠ 0) (hle : number ≤ Tag.maxNumber) (h : ∀ o ∈ contents, o.WellFormed) :
    Reads groupParts (encode contents ++ Encoder.key number .endGroup)
      (encode contents, Encoder.key number .endGroup) := by
  have hpasses : Passes (encode contents) := by
    rw [encode_eq]
    exact passes_flatMap fun o ho => (h o ho).passes
  exact reads_groupParts (Encoder.reads_header hpos hle _) hpasses

theorem WellFormed.reads_payload (h : o.WellFormed) :
    Reads (payload o.field.tag.wire) o.field.payload o.field.payload := by
  cases h with
  | @scalar number v hpos hle hshort =>
    have hflat : payload v.kind.wireType = flatPayload v.kind.wireType := by cases v <;> rfl
    change Reads (payload v.kind.wireType) v.raw.payload v.raw.payload
    rw [hflat]
    exact reads_flatPayload_scalar hshort
  | message hpos hle hshort => exact (reads_delimitedParts hshort).map _
  | group hpos hle hcontents => exact (reads_groupParts_encode hpos hle hcontents).map _

theorem WellFormed.framed (h : o.WellFormed) : o.field.Framed :=
  ⟨h.reads_header, h.reads_payload⟩

theorem WellFormed.reads_value (h : o.WellFormed) : Reads o.kind.read o.field.payload o.value := by
  cases h with
  | scalar hpos hle hshort => exact Scalar.reads_value _ hshort
  | message hpos hle hshort => exact (reads_lengthDelimited hshort).map Value.bytes
  | group hpos hle hcontents =>
    exact ((reads_groupParts_encode hpos hle hcontents).map Prod.fst).map Value.bytes

/-- For a field of its kind an occurrence has the value it was written with. -/
theorem WellFormed.interpret_field (h : o.WellFormed) :
    o.kind.interpret o.field.tag.wire o.field.payload = ⟨[o.value], none⟩ := by
  have hwire : o.field.tag.wire = o.kind.wireType := rfl
  rw [FieldKind.interpret, if_pos hwire, h.reads_value.eval]

end Occurrence

/-! ## Messages -/

namespace Walk

theorem ofMessage_encode {occurrences : List Occurrence} (h : ∀ o ∈ occurrences, o.WellFormed) :
    ofMessage (Occurrence.encode occurrences) = ⟨occurrences.map Occurrence.field, .complete⟩ := by
  have hbytes : Occurrence.encode occurrences =
      (occurrences.map Occurrence.field).flatMap Field.bytes := by
    rw [Occurrence.encode_eq, List.flatMap_map]
  rw [hbytes]
  apply ofMessage_framed
  intro f hf
  obtain ⟨o, ho, rfl⟩ := List.mem_map.1 hf
  exact (h o ho).framed

end Walk

end WireColumns
