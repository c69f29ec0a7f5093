import WireColumns.Proofs.Column.Acceptance
import WireColumns.Proofs.Wire.Decoding

/-! # The order of occurrences across fields

Occurrences may change places with those of other fields, and with message-set items for other
fields, without any effect on the batch (`Decoder.decode_reordered`): whether an occurrence is
refused does not depend on its place, and the values of a field are those of the occurrences for
that field, in their order (`Field.flatMap_valuesFor_filter`). -/

namespace WireColumns

namespace Field

/-- The number of the field that an occurrence is for: its own, or the type id of an item of a
message set. -/
def target? (messageSetItems : Bool) (f : Field) : Option UInt32 :=
  match f.delivery messageSetItems with
  | .ok t => some t.number
  | .error _ => none

/-- The same occurrences in another order, where those for one field keep theirs. -/
structure Reordering (messageSetItems : Bool) (fields fields' : List Field) : Prop where
  perm : fields.Perm fields'
  filter_eq : ∀ number, fields.filter (·.target? messageSetItems == some number) =
    fields'.filter (·.target? messageSetItems == some number)

variable {messageSetItems : Bool} {number : UInt32}

theorem valuesFor_of_target?_ne {f : Field} (h : f.target? messageSetItems ≠ some number)
    (kind : FieldKind) : f.valuesFor messageSetItems number kind = [] := by
  unfold target? at h
  unfold valuesFor
  cases hdelivery : f.delivery messageSetItems with
  | error e => rfl
  | ok t =>
    rw [hdelivery] at h
    exact if_neg fun hn => h (congrArg some hn)

/-- Only the occurrences for a field contribute to it. -/
theorem flatMap_valuesFor_filter (number : UInt32) (kind : FieldKind) (fields : List Field) :
    (fields.filter (·.target? messageSetItems == some number)).flatMap
        (valuesFor messageSetItems number kind) =
      fields.flatMap (valuesFor messageSetItems number kind) := by
  induction fields with
  | nil => rfl
  | cons f fields ih =>
    rw [List.filter_cons, List.flatMap_cons]
    split
    next => rw [List.flatMap_cons, ih]
    next hne => rw [valuesFor_of_target?_ne (by simpa using hne), ih, List.nil_append]

theorem Reordering.flatMap_valuesFor {fields fields' : List Field}
    (h : Reordering messageSetItems fields fields') (number : UInt32) (kind : FieldKind) :
    fields.flatMap (valuesFor messageSetItems number kind) =
      fields'.flatMap (valuesFor messageSetItems number kind) := by
  rw [← flatMap_valuesFor_filter, h.filter_eq, flatMap_valuesFor_filter]

end Field

namespace Decoder

open Collector Occurrence

variable {d : Decoder} {fields fields' : List Field}

section

variable (hd : d.Valid) (h : ∀ f ∈ fields, f.Framed ∧ f.tag.wire ≠ .endGroup)
  (hre : Field.Reordering d.options.messageSetItems fields fields')
include h hre

theorem Accepts.reordered (haccepts : d.Accepts (fields.flatMap Field.bytes)) :
    d.Accepts (fields'.flatMap Field.bytes) := by
  have h' : ∀ f ∈ fields', f.Framed ∧ f.tag.wire ≠ .endGroup :=
    fun f hf => h f (hre.perm.mem_iff.2 hf)
  have hwalk := Walk.untilEndGroup_ofMessage_framed h
  have hwalk' := Walk.untilEndGroup_ofMessage_framed h'
  refine ⟨by rw [hwalk'], fun f hf => haccepts.unrefused f ?_⟩
  rw [hwalk'] at hf
  rw [hwalk]
  exact hre.perm.mem_iff.2 hf

include hd

/-- An accepted message does the same when its occurrences are reordered. -/
theorem consume_reordered (haccepts : d.Accepts (fields.flatMap Field.bytes)) {s : Session}
    (hs : d.Fits s) :
    d.consume s (fields.flatMap Field.bytes) = d.consume s (fields'.flatMap Field.bytes) := by
  have h' : ∀ f ∈ fields', f.Framed ∧ f.tag.wire ≠ .endGroup :=
    fun f hf => h f (hre.perm.mem_iff.2 hf)
  apply haccepts.consume_congr (haccepts.reordered h hre) hd hs
  intro n k
  rw [Walk.untilEndGroup_ofMessage_framed h, Walk.untilEndGroup_ofMessage_framed h']
  exact hre.flatMap_valuesFor n k

end

/-- The order of occurrences across fields is irrelevant: if the occurrences of messages are
reordered, but those for one field stay in order, an accepted batch is decoded to the same
columns. -/
theorem decode_reordered {specs : List FieldSpec} {options : DecodeOptions}
    (hd : ofFields specs options = .ok d) (hp : options.onCorrupt = .fail)
    {messages messages' : List (List Field)}
    (h : ∀ fields ∈ messages, ∀ f ∈ fields, f.Framed ∧ f.tag.wire ≠ .endGroup)
    (hre : List.Forall₂ (Field.Reordering options.messageSetItems) messages messages')
    {batch : Batch} (hbatch : d.decode (messages.map (·.flatMap Field.bytes)) = .ok batch) :
    d.decode (messages'.map (·.flatMap Field.bytes)) = .ok batch := by
  have hvalid := valid_of_ofFields hd
  have haccepts := List.forall_mem_map.1 ((decode_eq_ok_iff hd hp).1 ⟨batch, hbatch⟩)
  obtain rfl := options_of_ofFields hd
  rw [← hbatch]
  refine (decode_congr hvalid ?_).symm
  rw [List.forall₂_map_left_iff, List.forall₂_map_right_iff]
  clear hbatch
  induction hre with
  | nil => exact .nil
  | cons hfields _ ih =>
    rw [List.forall_mem_cons] at h haccepts
    exact .cons (fun s hs => consume_reordered hvalid h.1 hfields haccepts.1 hs)
      (ih h.2 haccepts.2)

/-- A message-set item and an occurrence of the field it stands for keep their order, and an
occurrence of another field moves in front of both. The item's value is collected along with the
others. -/
theorem decode_reordered_item :
    ofFields [⟨2, .bytes, true, none, none⟩, ⟨3, .bool, false, none, none⟩]
        { messageSetItems := true } =
      .ok ⟨[⟨⟨2, .bytes, true, none, none⟩, 0⟩, ⟨⟨3, .bool, false, none, none⟩, 1⟩],
        { messageSetItems := true }⟩ ∧
    ∃ batch,
      decode ⟨[⟨⟨2, .bytes, true, none, none⟩, 0⟩, ⟨⟨3, .bool, false, none, none⟩, 1⟩],
          { messageSetItems := true }⟩
        [encode [.group 1 [.scalar 2 (.uint32 2), .scalar 3 (.bytes [9])], .scalar 2 (.bytes [7]),
          .scalar 3 (.bool true)]] = .ok batch ∧
      decode ⟨[⟨⟨2, .bytes, true, none, none⟩, 0⟩, ⟨⟨3, .bool, false, none, none⟩, 1⟩],
          { messageSetItems := true }⟩
        [encode [.scalar 3 (.bool true), .group 1 [.scalar 2 (.uint32 2), .scalar 3 (.bytes [9])],
          .scalar 2 (.bytes [7])]] = .ok batch ∧
      batch = ⟨[2, 3], [⟨.bytes, .borrowed, [.bytes [9], .bytes [7]], [0, 0]⟩,
        ⟨.bool, .borrowed, [.bool true], [0]⟩], 1, 0⟩ := by
  have hfields : ofFields [⟨2, .bytes, true, none, none⟩, ⟨3, .bool, false, none, none⟩]
        { messageSetItems := true } =
      .ok ⟨[⟨⟨2, .bytes, true, none, none⟩, 0⟩, ⟨⟨3, .bool, false, none, none⟩, 1⟩],
        { messageSetItems := true }⟩ := by cbv
  have hbytes : (scalar 2 (.bytes [7])).WellFormed := .scalar (by decide) (by decide) (by cbv)
  have hbool : (scalar 3 (.bool true)).WellFormed := .scalar (by decide) (by decide) trivial
  have hgroup : (group 1 [.scalar 2 (.uint32 2), .scalar 3 (.bytes [9])]).WellFormed := by
    refine .group (by decide) (by decide) ?_
    simp only [List.forall_mem_cons, List.not_mem_nil, false_imp_iff, implies_true, and_true]
    exact ⟨.scalar (by decide) (by decide) trivial, .scalar (by decide) (by decide) (by cbv)⟩
  have hframed : ∀ f ∈ [(group 1 [.scalar 2 (.uint32 2), .scalar 3 (.bytes [9])]).field,
      (scalar 2 (.bytes [7])).field, (scalar 3 (.bool true)).field],
      f.Framed ∧ f.tag.wire ≠ .endGroup := by
    simp only [List.forall_mem_cons, List.not_mem_nil, false_imp_iff, implies_true, and_true]
    exact ⟨⟨hgroup.framed, wire_ne_endGroup _⟩, ⟨hbytes.framed, wire_ne_endGroup _⟩,
      hbool.framed, wire_ne_endGroup _⟩
  have hre : Field.Reordering true
      [(group 1 [.scalar 2 (.uint32 2), .scalar 3 (.bytes [9])]).field,
        (scalar 2 (.bytes [7])).field, (scalar 3 (.bool true)).field]
      [(scalar 3 (.bool true)).field,
        (group 1 [.scalar 2 (.uint32 2), .scalar 3 (.bytes [9])]).field,
        (scalar 2 (.bytes [7])).field] := by
    have hitem : (group 1 [.scalar 2 (.uint32 2), .scalar 3 (.bytes [9])]).field.target? true =
      some 2 := by cbv
    have hordinary : (scalar 2 (.bytes [7])).field.target? true = some 2 := by cbv
    have hother : (scalar 3 (.bool true)).field.target? true = some 3 := by cbv
    refine ⟨@List.perm_append_comm _ [_, _] [_], fun number => ?_⟩
    simp only [List.filter_cons, hitem, hordinary, hother, List.filter_nil]
    by_cases hnumber : number = 3
    · simp [hnumber]
    · simp [Ne.symm hnumber]
  have hwalk := Walk.untilEndGroup_ofMessage_framed hframed
  have hvalid := valid_of_ofFields hfields
  have haccepted : ∀ f ∈ [(group 1 [.scalar 2 (.uint32 2), .scalar 3 (.bytes [9])]).field,
      (scalar 2 (.bytes [7])).field, (scalar 3 (.bool true)).field], f.refusal? true
        (start ⟨[⟨⟨2, .bytes, true, none, none⟩, 0⟩, ⟨⟨3, .bool, false, none, none⟩, 1⟩],
          { messageSetItems := true }⟩).collectors = none := by
    simp only [List.forall_mem_cons, List.not_mem_nil, false_imp_iff, implies_true, and_true]
    exact ⟨by cbv, by cbv, by cbv⟩
  have hadds := adds_of_accepted hvalid hwalk haccepted
  have hbatch : decode ⟨[⟨⟨2, .bytes, true, none, none⟩, 0⟩, ⟨⟨3, .bool, false, none, none⟩, 1⟩],
        { messageSetItems := true }⟩
      [[(group 1 [.scalar 2 (.uint32 2), .scalar 3 (.bytes [9])]).field,
        (scalar 2 (.bytes [7])).field, (scalar 3 (.bool true)).field].flatMap Field.bytes] =
      .ok ⟨[2, 3], [⟨.bytes, .borrowed, [.bytes [9], .bytes [7]], [0, 0]⟩,
        ⟨.bool, .borrowed, [.bool true], [0]⟩], 1, 0⟩ := by
    rw [decode_one, hadds _ hvalid.fits_start]
    cbv
  refine ⟨hfields, _, ?_, ?_, rfl⟩
  · rw [encode_eq]
    exact hbatch
  · rw [encode_eq]
    exact decode_reordered hfields rfl (List.forall_mem_singleton.2 hframed)
      (.cons hre .nil) hbatch

end Decoder

end WireColumns
