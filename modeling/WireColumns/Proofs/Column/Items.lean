import WireColumns.Proofs.Column.Acceptance
import WireColumns.Proofs.Lists
import WireColumns.Proofs.Wire.Decoding
import WireColumns.Proofs.Wire.ItemParts

/-! # Message-set items and the fields they stand for

An item of a message set does what an ordinary occurrence of the field that its type id names does
if this carries the item's message (`Field.StandsFor.alike`): what a field makes of a
length-delimited payload depends on the bytes behind the length prefix only
(`FieldKind.interpret_lengthDelimited_congr`). So items may be replaced by such occurrences without
any effect on a batch that is accepted (`Decoder.decode_items_replaced`). -/

namespace WireColumns

/-! ## Length-delimited payloads -/

/-- A field of any kind makes the same of the same bytes, however their length is written. -/
theorem FieldKind.interpret_lengthDelimited_congr {p q : Bytes}
    (h : Read.lengthDelimited.eval p = Read.lengthDelimited.eval q) (kind : FieldKind) :
    kind.interpret .lengthDelimited p = kind.interpret .lengthDelimited q := by
  have hread : kind.wireType = .lengthDelimited → kind.read.eval p = kind.read.eval q := by
    intro hwire
    cases kind with
    | string | bytes | message =>
      simp only [read]
      rw [Read.eval_map, Read.eval_map, h]
    | _ => cases hwire
  unfold interpret
  split
  next hwire => rw [hread hwire.symm]
  next => rw [h]

/-! ## Items -/

namespace Field

/-- The item of a message set that an occurrence of a group is. -/
def item (f : Field) : Except Corruption MessageSetItem :=
  Read.group.eval f.payload >>= MessageSetItem.parse

/-- The first occurrence is an item of a message set; the second is one of the field that the item
stands for, and carries the item's message. -/
structure StandsFor (f g : Field) : Prop where
  tag_eq : f.tag = Tag.messageSetItem
  framed : g.Framed
  carries : ∃ item message, f.item = .ok item ∧ item.message = .ok message ∧
    g.tag = ⟨item.typeId, .lengthDelimited⟩ ∧ Read.lengthDelimited.eval g.payload = .ok message

/-- Two occurrences have the same values for every field, and are refused for the same reasons. -/
structure Alike (messageSetItems : Bool) (f g : Field) : Prop where
  valuesFor_eq : ∀ n k, f.valuesFor messageSetItems n k = g.valuesFor messageSetItems n k
  refusal?_eq : ∀ cs, f.refusal? messageSetItems cs = g.refusal? messageSetItems cs
  endGroup_iff : f.tag.wire = .endGroup ↔ g.tag.wire = .endGroup

variable {messageSetItems : Bool} {f g : Field}

theorem Alike.refl (messageSetItems : Bool) (f : Field) : f.Alike messageSetItems f :=
  ⟨fun _ _ => rfl, fun _ => rfl, Iff.rfl⟩

theorem delivery_of_item (htag : f.tag = Tag.messageSetItem) :
    f.delivery true =
      (fun item => ⟨item.typeId, .lengthDelimited, item.encoded⟩) <$> f.item := by
  unfold delivery item
  rw [htag]
  cases Read.group.eval f.payload with
  | error e => rfl
  | ok contents => cases MessageSetItem.parse contents <;> rfl

/-- An item does what an occurrence of the field that it stands for does. -/
theorem StandsFor.alike (h : f.StandsFor g) : f.Alike true g := by
  obtain ⟨item, message, hitem, hmessage, htag, hpayload⟩ := h.carries
  have hf : f.delivery true = .ok ⟨item.typeId, .lengthDelimited, item.encoded⟩ := by
    rw [delivery_of_item h.tag_eq, hitem]
    rfl
  have hg : g.delivery true = .ok ⟨item.typeId, .lengthDelimited, g.payload⟩ := by
    rw [delivery_of_ne (by simp [htag, Tag.messageSetItem]), htag]
  have hsame := FieldKind.interpret_lengthDelimited_congr (hmessage.trans hpayload.symm)
  refine ⟨fun n k => ?_, fun cs => ?_, ?_⟩
  · simp only [valuesFor, hf, hg, Delivery.valuesFor, hsame]
  · simp only [refusal?, hf, hg, Collector.refusal?, hsame]
  · simp [h.tag_eq, htag, Tag.messageSetItem]

/-- An item that is not refused stands for the occurrence that is written for its message. -/
theorem exists_standsFor (htag : f.tag = Tag.messageSetItem) {cs : Array Collector}
    (h : f.refusal? true cs = none) :
    ∃ item message, f.item = .ok item ∧ item.message = .ok message ∧ item.typeId ≠ 0 ∧
      (item.typeId ≤ Tag.maxNumber →
        f.StandsFor (Occurrence.scalar item.typeId (.bytes message)).field) := by
  cases hitem : f.item with
  | error e =>
    rw [refusal?, delivery_of_item htag, hitem] at h
    cases h
  | ok item =>
    obtain ⟨contents, hcontents, hparse⟩ : ∃ contents, Read.group.eval f.payload = .ok contents ∧
        MessageSetItem.parse contents = .ok item := by
      unfold Field.item at hitem
      cases hgroup : Read.group.eval f.payload with
      | error e =>
        rw [hgroup] at hitem
        cases hitem
      | ok contents =>
        rw [hgroup] at hitem
        exact ⟨contents, rfl, hitem⟩
    obtain ⟨_, message, hlead, -, hmessage⟩ := MessageSetItem.exists_message_of_parse hparse
    obtain ⟨_, -, hparts⟩ := MessageSetItem.parse_eq_ok_iff.1 hparse
    have hzero := hparts.typeId_ne
    have hlength := hlead.lt
    refine ⟨item, message, rfl, hmessage, hzero, fun hle => ?_⟩
    have hwellFormed : (Occurrence.scalar item.typeId (.bytes message)).WellFormed :=
      .scalar hzero hle hlength
    refine ⟨htag, hwellFormed.framed, item, message, hitem, hmessage, rfl, ?_⟩
    exact (reads_lengthDelimited hlength).eval

end Field

/-- The other message has, in the places of some of the items, occurrences of the fields that these
stand for. -/
def ItemsReplaced (m m' : Bytes) : Prop :=
  ∃ fields', m' = fields'.flatMap Field.bytes ∧
    List.Forall₂ (fun f g => g = f ∨ f.StandsFor g) (Walk.ofMessage m).fields fields'

namespace Decoder

open Collector Occurrence

variable {d : Decoder} {s : Session} {m : Bytes} {messages : List Bytes} {batch : Batch}

/-! ## Occurrences that are alike -/

section

variable {fields' : List Field} (haccepts : d.Accepts m) (hframed : ∀ g ∈ fields', g.Framed)
  (halike : List.Forall₂ (Field.Alike d.options.messageSetItems) (Walk.ofMessage m).fields fields')
include haccepts hframed halike

/-- Where occurrences are replaced by ones that are alike, so are those in front of a tag that
closes a group. -/
theorem Accepts.untilEndGroup_alike :
    (Walk.ofMessage (fields'.flatMap Field.bytes)).untilEndGroup.ending = .complete ∧
      List.Forall₂ (Field.Alike d.options.messageSetItems) (Walk.ofMessage m).untilEndGroup.fields
        (Walk.ofMessage (fields'.flatMap Field.bytes)).untilEndGroup.fields := by
  have hending := (Walk.of_untilEndGroup_complete haccepts.complete).1
  have hwalk : Walk.ofMessage m = ⟨(Walk.ofMessage m).fields, .complete⟩ :=
    congrArg (Walk.mk _) hending
  obtain ⟨hsame, hfields⟩ :=
    Walk.untilEndGroup_forall₂ (fun f g h => h.endGroup_iff) halike .complete
  rw [← hwalk, haccepts.complete] at hsame
  rw [← hwalk] at hfields
  rw [Walk.ofMessage_framed hframed]
  exact ⟨hsame.symm, hfields⟩

theorem Accepts.alike : d.Accepts (fields'.flatMap Field.bytes) := by
  obtain ⟨hcomplete, hfields⟩ := haccepts.untilEndGroup_alike hframed halike
  refine ⟨hcomplete, fun g hg => ?_⟩
  obtain ⟨f, hf, hfg⟩ := exists_mem_of_forall₂ hfields hg
  rw [← hfg.refusal?_eq]
  exact haccepts.unrefused f hf

/-- An accepted message does the same when its occurrences are replaced by ones that are alike. -/
theorem consume_alike (hd : d.Valid) (hs : d.Fits s) :
    d.consume s m = d.consume s (fields'.flatMap Field.bytes) := by
  obtain ⟨-, hfields⟩ := haccepts.untilEndGroup_alike hframed halike
  apply haccepts.consume_congr (haccepts.alike hframed halike) hd hs
  intro n k
  rw [Walk.valuesFor, Walk.valuesFor, ← List.forall₂_eq_eq_eq]
  apply List.rel_flatMap hfields
  intro f g hfg
  rw [List.forall₂_eq_eq_eq]
  exact hfg.valuesFor_eq n k

end

/-! ## Items -/

theorem Accepts.consume_itemsReplaced (hd : d.Valid) (hs : d.Fits s)
    (hitems : d.options.messageSetItems = true) (haccepts : d.Accepts m) {m' : Bytes}
    (h : ItemsReplaced m m') : d.consume s m = d.consume s m' := by
  obtain ⟨fields', rfl, hfields⟩ := h
  have hm := (Walk.tiles_of_complete haccepts.complete).1
  have hframed : ∀ g ∈ fields', g.Framed := by
    intro g hg
    obtain ⟨f, hf, rfl | hfg⟩ := exists_mem_of_forall₂ hfields hg
    · exact hm g hf
    · exact hfg.framed
  have halike : List.Forall₂ (Field.Alike d.options.messageSetItems) (Walk.ofMessage m).fields
      fields' := by
    rw [hitems]
    refine hfields.imp fun f g hfg => ?_
    rcases hfg with rfl | hfg
    · exact .refl true g
    · exact hfg.alike
  exact consume_alike haccepts hframed halike hd hs

/-- A message-set item is an occurrence of the field that its type id names: if items in the
messages of a batch that is decoded are replaced by length-delimited occurrences of those fields,
which carry the items' messages, the batch is decoded to the same columns. Any item can be replaced
so if its type id is the number of a field. -/
theorem decode_items_replaced {specs : List FieldSpec} {options : DecodeOptions}
    (hd : ofFields specs options = .ok d) (hp : options.onCorrupt = .fail)
    (hitems : options.messageSetItems = true) (hbatch : d.decode messages = .ok batch) :
    (∀ messages', List.Forall₂ ItemsReplaced messages messages' →
      d.decode messages' = .ok batch) ∧
    ∀ m ∈ messages, ∀ f ∈ (Walk.ofMessage m).fields, f.tag = Tag.messageSetItem →
      ∃ item message, f.item = .ok item ∧ item.message = .ok message ∧ item.typeId ≠ 0 ∧
        (item.typeId ≤ Tag.maxNumber →
          f.StandsFor (Occurrence.scalar item.typeId (.bytes message)).field) := by
  have hvalid := valid_of_ofFields hd
  have haccepts := (decode_eq_ok_iff hd hp).1 ⟨batch, hbatch⟩
  obtain rfl := options_of_ofFields hd
  refine ⟨fun messages' hmessages => ?_, fun m hm f hf htag => ?_⟩
  · rw [← hbatch]
    refine (decode_congr hvalid ?_).symm
    clear hbatch
    induction hmessages with
    | nil => exact .nil
    | cons hm _ ih =>
      rw [List.forall_mem_cons] at haccepts
      exact .cons (fun s hs => haccepts.1.consume_itemsReplaced hvalid hs hitems hm)
        (ih haccepts.2)
  · have hwire : f.tag.wire ≠ .endGroup := by simp [htag, Tag.messageSetItem]
    have hmem := Walk.mem_untilEndGroup (haccepts m hm).complete hf hwire
    have hrefusal := (haccepts m hm).unrefused f hmem
    rw [hitems] at hrefusal
    exact f.exists_standsFor htag hrefusal

/-- The item's parts come in the other order, with a message that does not count and an unknown
field, and its message is a packed run for the field. -/
theorem decode_items_replaced_packed :
    ofFields [⟨2, .int32, true, none, none⟩] { messageSetItems := true } =
        .ok ⟨[⟨⟨2, .int32, true, none, none⟩, 0⟩], { messageSetItems := true }⟩ ∧
      decode ⟨[⟨⟨2, .int32, true, none, none⟩, 0⟩], { messageSetItems := true }⟩
          [encode [.group 1 [.scalar 3 (.bytes [9]), .scalar 7 (.uint32 5), .scalar 2 (.uint32 2),
            .scalar 3 (.bytes [1, 3])], .scalar 2 (.int32 7)]] =
        .ok ⟨[2], [⟨.int32, .borrowed, [.int32 1, .int32 3, .int32 7], [0, 0, 0]⟩], 1, 0⟩ ∧
      decode ⟨[⟨⟨2, .int32, true, none, none⟩, 0⟩], { messageSetItems := true }⟩
          [encode [.scalar 2 (.bytes [1, 3]), .scalar 2 (.int32 7)]] =
        .ok ⟨[2], [⟨.int32, .borrowed, [.int32 1, .int32 3, .int32 7], [0, 0, 0]⟩], 1, 0⟩ := by
  have hfields : ofFields [⟨2, .int32, true, none, none⟩] { messageSetItems := true } =
      .ok ⟨[⟨⟨2, .int32, true, none, none⟩, 0⟩], { messageSetItems := true }⟩ := by cbv
  have hbytes : (scalar 2 (.bytes [1, 3])).WellFormed := .scalar (by decide) (by decide) (by cbv)
  have hint : (scalar 2 (.int32 7)).WellFormed := .scalar (by decide) (by decide) trivial
  have hgroup : (group 1 [.scalar 3 (.bytes [9]), .scalar 7 (.uint32 5), .scalar 2 (.uint32 2),
      .scalar 3 (.bytes [1, 3])]).WellFormed := by
    refine .group (by decide) (by decide) ?_
    simp only [List.forall_mem_cons, List.not_mem_nil, false_imp_iff, implies_true, and_true]
    exact ⟨.scalar (by decide) (by decide) (by cbv), .scalar (by decide) (by decide) trivial,
      .scalar (by decide) (by decide) trivial, .scalar (by decide) (by decide) (by cbv)⟩
  have hwalk := Walk.ofMessage_encode
    (List.forall_mem_cons.2 ⟨hgroup, List.forall_mem_singleton.2 hint⟩)
  have haccepts : (⟨[⟨⟨2, .int32, true, none, none⟩, 0⟩], { messageSetItems := true }⟩ :
      Decoder).Accepts (encode [.group 1 [.scalar 3 (.bytes [9]), .scalar 7 (.uint32 5),
        .scalar 2 (.uint32 2), .scalar 3 (.bytes [1, 3])], .scalar 2 (.int32 7)]) := by
    constructor
    · rw [hwalk]
      rfl
    · rw [hwalk]
      change ∀ f ∈ [_, _], _
      simp only [List.forall_mem_cons, List.not_mem_nil, false_imp_iff, implies_true, and_true]
      exact ⟨by cbv, by cbv⟩
  obtain ⟨batch, hbatch⟩ := (decode_eq_ok_iff hfields rfl).2 (List.forall_mem_singleton.2 haccepts)
  have hstandsFor : (group 1 [.scalar 3 (.bytes [9]), .scalar 7 (.uint32 5),
      .scalar 2 (.uint32 2), .scalar 3 (.bytes [1, 3])]).field.StandsFor
        (scalar 2 (.bytes [1, 3])).field :=
    ⟨rfl, hbytes.framed, ⟨2, [2, 1, 3]⟩, [1, 3], by cbv, by cbv, rfl, by cbv⟩
  have hreplaced : ItemsReplaced
      (encode [.group 1 [.scalar 3 (.bytes [9]), .scalar 7 (.uint32 5), .scalar 2 (.uint32 2),
        .scalar 3 (.bytes [1, 3])], .scalar 2 (.int32 7)])
      (encode [.scalar 2 (.bytes [1, 3]), .scalar 2 (.int32 7)]) := by
    refine ⟨[(scalar 2 (.bytes [1, 3])).field, (scalar 2 (.int32 7)).field], encode_eq _, ?_⟩
    rw [hwalk]
    exact .cons (.inr hstandsFor) (.cons (.inl rfl) .nil)
  have hdirect : decode ⟨[⟨⟨2, .int32, true, none, none⟩, 0⟩], { messageSetItems := true }⟩
        [encode [.scalar 2 (.bytes [1, 3]), .scalar 2 (.int32 7)]] =
      .ok ⟨[2], [⟨.int32, .borrowed, [.int32 1, .int32 3, .int32 7], [0, 0, 0]⟩], 1, 0⟩ := by cbv
  have hsame := (decode_items_replaced hfields rfl rfl hbatch).1 _ (.cons hreplaced .nil)
  obtain rfl := Except.ok.inj (hsame.symm.trans hdirect)
  exact ⟨hfields, hbatch, hdirect⟩

end Decoder

end WireColumns
