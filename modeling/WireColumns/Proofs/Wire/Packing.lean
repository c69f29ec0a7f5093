import WireColumns.Proofs.Wire.Decoding

/-! # Packed runs

How a message is laid out around the values of one packable field: each value stands in an
occurrence of its own or in a packed run, and occurrences of other fields stand in between
(`Segment`). The values of a segment are read back as they were written, whichever way that was
(`Segment.interpret_single`, `Segment.interpret_run`). -/

namespace WireColumns

open Encoder Read

/-! ## Reading a run -/

theorem PackedRun.readFrom_flatMap {α : Type} {kind : FieldKind} {encode : α → Bytes}
    {value : α → Value} {as : List α} (h : ∀ a ∈ as, Reads kind.read (encode a) (value a))
    (seen : Array Value) :
    readFrom kind seen (as.flatMap encode) = ⟨seen.toList ++ as.map value, none⟩ := by
  induction as generalizing seen with
  | nil =>
    rw [List.flatMap_nil, readFrom, List.map_nil, List.append_nil]
    rfl
  | cons a as ih =>
    rw [List.forall_mem_cons] at h
    have hread := h.1 (as.flatMap encode)
    have hempty : (encode a ++ as.flatMap encode).isEmpty = false := by
      simp [h.1.ne_nil kind.read_advances]
    rw [List.flatMap_cons, readFrom, hempty, if_neg Bool.false_ne_true]
    split
    next hok =>
      cases hread.symm.trans hok
      rw [ih h.2]
      simp
    next herror => cases hread.symm.trans herror

/-! ## Writing a run -/

/-- The number written where no byte string is. -/
def Raw.word : Raw → UInt64
  | varint word | fixed64 word => word
  | fixed32 word => word.toUInt64
  | delimited _ => 0

theorem Scalar.short_raw {kind : FieldKind} (hkind : kind.isPackable = true) {v : Scalar}
    (h : v.kind = kind) : v.raw.Short := by
  cases v with
  | string | bytes =>
    subst h
    cases hkind
  | _ => trivial

variable [Encoder]

theorem Raw.payload_of_wire (raw : Raw) :
    (raw.wire = .varint → raw.payload = Encoder.varint raw.word) ∧
      (raw.wire = .fixed32 → raw.payload = Fixed.encode 4 raw.word.toUInt32.toBitVec) ∧
      (raw.wire = .fixed64 → raw.payload = Fixed.encode 8 raw.word.toBitVec) := by
  refine ⟨fun h => ?_, fun h => ?_, fun h => ?_⟩
  · cases raw <;> cases h
    rfl
  · cases raw <;> cases h
    rw [payload, word, UInt32.toUInt32_toUInt64]
  · cases raw <;> cases h
    rfl

/-- The bytes of values one after the other. -/
def Scalar.packed (values : List Scalar) : Bytes := values.flatMap (·.raw.payload)

/-- Adds a packed run of values of a kind with the method for the wire type of the kind. -/
def Scalar.writeRun (m : Message) (number : UInt32) (kind : FieldKind) (values : List Scalar) :
    Message :=
  match kind.wireType with
  | .varint => m.packedVarints number (values.map (·.raw.word))
  | .fixed32 => m.packedFixed32 number (values.map (·.raw.word.toUInt32))
  | .fixed64 => m.packedFixed64 number (values.map (·.raw.word))
  | .lengthDelimited | .startGroup | .endGroup => m

theorem Scalar.writeRun_eq {kind : FieldKind} (hkind : kind.isPackable = true)
    {values : List Scalar} (h : ∀ v ∈ values, v.kind = kind) (m : Message) (number : UInt32) :
    writeRun m number kind values = m.bytes number (packed values) := by
  have hwire : ∀ v ∈ values, v.raw.wire = kind.wireType := fun v hv => by rw [wire_raw, h v hv]
  obtain ⟨hdelimited, hgroup⟩ := kind.isPackable_iff.1 hkind
  have hend : kind.wireType ≠ .endGroup := by cases kind <;> exact nofun
  unfold writeRun packed
  cases hw : kind.wireType with
  | varint =>
    rw [Message.packedVarints, List.flatMap_map]
    refine congrArg (m.bytes number) (List.flatMap_congr fun v hv => ?_)
    exact (v.raw.payload_of_wire.1 ((hwire v hv).trans hw)).symm
  | fixed32 =>
    rw [Message.packedFixed32, List.flatMap_map]
    refine congrArg (m.bytes number) (List.flatMap_congr fun v hv => ?_)
    exact (v.raw.payload_of_wire.2.1 ((hwire v hv).trans hw)).symm
  | fixed64 =>
    rw [Message.packedFixed64, List.flatMap_map]
    refine congrArg (m.bytes number) (List.flatMap_congr fun v hv => ?_)
    exact (v.raw.payload_of_wire.2.2 ((hwire v hv).trans hw)).symm
  | lengthDelimited => exact absurd hw hdelimited
  | startGroup => exact absurd hw hgroup
  | endGroup => exact absurd hw hend

/-! ## Parts of a message -/

/-- A segment of a message, seen from one packable field. -/
inductive Segment
  /-- an occurrence with one value of the field -/
  | single (value : Scalar)
  /-- a packed run of values of the field -/
  | run (values : List Scalar)
  /-- an occurrence of another field -/
  | other (field : Field)

namespace Segment

/-- The values of the field. -/
def scalars : Segment → List Scalar
  | single v => [v]
  | run vs => vs
  | other _ => []

/-- The occurrences of other fields. -/
def others : Segment → List Field
  | other f => [f]
  | _ => []

def write (number : UInt32) (kind : FieldKind) (m : Message) : Segment → Message
  | single v => v.write m number
  | run vs => Scalar.writeRun m number kind vs
  | other f => m.push f.bytes

/-- The message with the given segments. -/
def encode (number : UInt32) (kind : FieldKind) (segments : List Segment) : Bytes :=
  (segments.foldl (write number kind) .empty).build

/-- What is read where a segment has been written. -/
def field (number : UInt32) : Segment → Field
  | single v => ⟨Encoder.key number v.kind.wireType, ⟨number, v.kind.wireType⟩, v.raw.payload⟩
  | run vs => ⟨Encoder.key number .lengthDelimited, ⟨number, .lengthDelimited⟩,
      (Raw.delimited (Scalar.packed vs)).payload⟩
  | other f => f

/-- The values are of the field's kind, and what is written can be read past. -/
inductive WellFormed (kind : FieldKind) : Segment → Prop
  | single {v} : v.kind = kind → WellFormed kind (single v)
  | run {vs} : (∀ v ∈ vs, v.kind = kind) → (Scalar.packed vs).length < 2 ^ 32 →
    WellFormed kind (run vs)
  | other {f} : f.Framed → f.tag.wire ≠ .endGroup → WellFormed kind (other f)

variable {number : UInt32} {kind : FieldKind} {p : Segment} {segments : List Segment}

theorem WellFormed.wire_ne_endGroup (h : p.WellFormed kind) :
    (p.field number).tag.wire ≠ .endGroup := by
  cases h with
  | @single v =>
    change v.kind.wireType ≠ _
    cases v.kind <;> exact nofun
  | run => exact nofun
  | other _ hend => exact hend

section

variable (hkind : kind.isPackable = true)
include hkind

theorem WellFormed.write_eq (h : p.WellFormed kind) (m : Message) :
    p.write number kind m = m.push (p.field number).bytes := by
  cases h with
  | single => exact Scalar.write_eq ..
  | run hvs => exact Scalar.writeRun_eq hkind hvs m number
  | other => rfl

theorem encode_eq (h : ∀ p ∈ segments, p.WellFormed kind) :
    encode number kind segments = (segments.map (field number)).flatMap Field.bytes := by
  have hbuild : ∀ m : Message, (segments.foldl (write number kind) m).build =
      m.build ++ (segments.map (field number)).flatMap Field.bytes := by
    induction segments with
    | nil => simp
    | cons p segments ih =>
      intro m
      rw [List.forall_mem_cons] at h
      rw [List.foldl_cons, h.1.write_eq hkind, ih h.2, List.map_cons, List.flatMap_cons,
        ← List.append_assoc]
      simp [Message.build, Message.push]
  exact hbuild .empty

variable [LawfulEncoder]

/-- An occurrence with one value gives this value. -/
theorem interpret_single {v : Scalar} (h : v.kind = kind) :
    kind.interpret v.kind.wireType v.raw.payload = ⟨[v.value], none⟩ := by
  have hread := v.reads_value (Scalar.short_raw hkind h)
  subst h
  rw [FieldKind.interpret, if_pos rfl, hread.eval]

/-- A packed run gives all its values. -/
theorem interpret_run {vs : List Scalar} (h : ∀ v ∈ vs, v.kind = kind)
    (hshort : (Scalar.packed vs).length < 2 ^ 32) :
    kind.interpret .lengthDelimited (Raw.delimited (Scalar.packed vs)).payload =
      ⟨vs.map Scalar.value, none⟩ := by
  have hreads : ∀ v ∈ vs, Reads kind.read v.raw.payload v.value := by
    intro v hv
    rw [← h v hv]
    exact v.reads_value (Scalar.short_raw hkind (h v hv))
  rw [FieldKind.interpret, if_neg (kind.isPackable_iff.1 hkind).1.symm, if_pos ⟨hkind, rfl⟩,
    (reads_lengthDelimited hshort).eval]
  exact PackedRun.readFrom_flatMap hreads #[]

theorem WellFormed.framed (hpos : number ≠ 0) (hle : number ≤ Tag.maxNumber)
    (h : p.WellFormed kind) : (p.field number).Framed := by
  cases h with
  | @single v hv =>
    refine ⟨reads_header hpos hle _, ?_⟩
    have hstart : v.kind.wireType ≠ .startGroup := hv ▸ (kind.isPackable_iff.1 hkind).2
    change Reads (payload v.kind.wireType) _ _
    rw [payload_eq_flatPayload hstart]
    exact Occurrence.reads_flatPayload_scalar (Scalar.short_raw hkind hv)
  | run hvs hshort => exact ⟨reads_header hpos hle _, (reads_delimitedParts hshort).map _⟩
  | other hf => exact hf

/-- A message is walked through segment by segment. -/
theorem walk_encode (hpos : number ≠ 0) (hle : number ≤ Tag.maxNumber)
    (h : ∀ p ∈ segments, p.WellFormed kind) :
    (Walk.ofMessage (encode number kind segments)).untilEndGroup =
      ⟨segments.map (field number), .complete⟩ := by
  have hframed : ∀ f ∈ segments.map (field number), f.Framed :=
    List.forall_mem_map.2 fun p hp => (h p hp).framed hkind hpos hle
  have hend : ∀ f ∈ segments.map (field number), f.tag.wire ≠ .endGroup :=
    List.forall_mem_map.2 fun p hp => (h p hp).wire_ne_endGroup
  rw [encode_eq hkind h, Walk.ofMessage_framed hframed, Walk.untilEndGroup_eq_self hend]

end

end Segment

end WireColumns
