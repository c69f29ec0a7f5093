import WireColumns.Proofs.Lists
import WireColumns.Proofs.Wire.Exactness
import WireColumns.Proofs.Wire.Grammar
import WireColumns.Proofs.Wire.Visit
import WireColumns.Wire.MessageSet

/-! # The parts of message-set items

An item is its last type id and its last message (`MessageSetItem.HasParts`), whatever stands around
them: contents can be parsed just if they are made up of occurrences among which are such parts
(`MessageSetItem.parse_eq_ok_iff`), and without the occurrences that are no parts they give the same
(`MessageSetItem.parse_filter`). Each occurrence of a part replaces what stands in the state, so the
state behind some occurrences is what the last of them brought, or else what was there before
(`MessageSetItem.visit_noteField`). -/

namespace WireColumns

open Varint Read

/-- The bytes of a number are read as this number, if it fits 64 bits. -/
theorem Read.varint_eval_eq_ok_iff {p : Bytes} (hp : IsNumber p) {v : UInt64} :
    varint.eval p = .ok v ↔ Encodes64 p v.toNat := by
  have heval : varint.eval p = .ok v ↔ ∃ width, decode p = .ok (v, width) := by
    rw [Read.eval, varint]
    cases decode p with
    | ok vw => simp [Prod.ext_iff]
    | error e => simp
  rw [heval]
  constructor
  · rintro ⟨width, hdecode⟩
    obtain ⟨q, rest, rfl, hq, -⟩ := decode_eq_ok_iff.1 hdecode
    -- the number ends where its bytes end
    have hfind := hp.findIdx?_append []
    rw [List.append_nil, hq.isNumber.findIdx?_append rest] at hfind
    have hpos := hq.isNumber.length_pos
    have hlength : q.length - 1 = (q ++ rest).length - 1 := Option.some.inj hfind
    rw [List.length_append] at hlength
    obtain rfl : rest = [] := List.length_eq_zero_iff.1 (by omega)
    rwa [List.append_nil]
  · intro h
    exact ⟨p.length, decode_eq_ok_iff.2 ⟨p, [], (List.append_nil p).symm, h, rfl⟩⟩

theorem IsPayload.exists_delimited {p : Bytes} (h : IsPayload .lengthDelimited p) :
    ∃ lead data, Encodes32 lead data.length ∧ p = lead ++ data := by
  cases h with
  | flat hflat =>
    cases hflat with
    | lengthDelimited hlead => exact ⟨_, _, hlead, rfl⟩

namespace MessageSetItem

/-- The tag of a type id. -/
def typeIdTag : Tag := ⟨typeIdNumber, .varint⟩

/-- The tag of a message. -/
def messageTag : Tag := ⟨messageNumber, .lengthDelimited⟩

/-- The item has the last type id and the last message among the occurrences. The type id is the low
32 bits of a number and not 0, and every type id among the occurrences must be a number. -/
structure HasParts (fields : List Field) (item : MessageSetItem) : Prop where
  readable : ∀ f ∈ fields, f.tag = typeIdTag → ∃ n, Encodes64 f.payload n
  typeId : ∃ f n, (fields.filter (·.tag = typeIdTag)).getLast? = some f ∧ Encodes64 f.payload n ∧
    item.typeId.toNat = n % 2 ^ 32
  typeId_ne : item.typeId ≠ 0
  encoded : ∃ f, (fields.filter (·.tag = messageTag)).getLast? = some f ∧ f.payload = item.encoded

variable {f : Field} {fields : List Field} {parts : Parts} {contents : Bytes}
  {item : MessageSetItem}

/-! ## One occurrence -/

/-- The low 32 bits of the number in an occurrence. -/
def lowBits (f : Field) : UInt32 :=
  match varint.eval f.payload with
  | .ok v => v.toUInt32
  | .error _ => 0

theorem noteField_typeId (h : f.tag = typeIdTag) (parts : Parts) :
    noteField f parts =
      match varint.eval f.payload with
      | .ok v => .ok () { parts with typeId? := some v.toUInt32 }
      | .error e => .error e parts := by
  have htag : f.tag = ⟨typeIdNumber, .varint⟩ := h
  rw [noteField, if_pos htag]
  cases varint.eval f.payload <;> rfl

theorem noteField_message (h : f.tag = messageTag) (parts : Parts) :
    noteField f parts = .ok () { parts with encoded? := some f.payload } := by
  have hne : f.tag ≠ ⟨typeIdNumber, .varint⟩ := by rw [h]; decide
  have htag : f.tag = ⟨messageNumber, .lengthDelimited⟩ := h
  rw [noteField, if_neg hne, if_pos htag]
  rfl

theorem noteField_other (htypeId : f.tag ≠ typeIdTag) (hmessage : f.tag ≠ messageTag)
    (parts : Parts) : noteField f parts = .ok () parts := by
  have hne : f.tag ≠ ⟨typeIdNumber, .varint⟩ := htypeId
  have hne' : f.tag ≠ ⟨messageNumber, .lengthDelimited⟩ := hmessage
  rw [noteField, if_neg hne, if_neg hne']
  rfl

/-! ## All occurrences -/

/-- Behind occurrences that can be read stand the last type id and the last message of them, or what
was there before. -/
theorem visit_noteField
    (h : ∀ f ∈ fields, f.tag = typeIdTag → ∃ v, varint.eval f.payload = .ok v) (parts : Parts) :
    Walk.visit ⟨fields, .complete⟩ noteField parts =
      .ok () ⟨((fields.filter (·.tag = typeIdTag)).map lowBits).getLast?.or parts.typeId?,
        ((fields.filter (·.tag = messageTag)).map Field.payload).getLast?.or parts.encoded?⟩ := by
  induction fields generalizing parts with
  | nil => rw [Walk.visit_nil]; rfl
  | cons f fields ih =>
    rw [List.forall_mem_cons] at h
    rw [Walk.visit_cons]
    simp only [bind, EStateM.bind]
    by_cases htypeId : f.tag = typeIdTag
    · have hne : f.tag ≠ messageTag := by rw [htypeId]; decide
      obtain ⟨v, hv⟩ := h.1 htypeId
      have hlow : lowBits f = v.toUInt32 := by rw [lowBits, hv]
      rw [noteField_typeId htypeId, hv]
      dsimp only
      rw [ih h.2, List.filter_cons_of_pos (by simpa using htypeId),
        List.filter_cons_of_neg (by simpa using hne), List.map_cons, getLast?_cons_or, hlow]
    · by_cases hmessage : f.tag = messageTag
      · rw [noteField_message hmessage]
        dsimp only
        rw [ih h.2, List.filter_cons_of_neg (by simpa using htypeId),
          List.filter_cons_of_pos (by simpa using hmessage), List.map_cons, getLast?_cons_or]
      · rw [noteField_other htypeId hmessage]
        dsimp only
        rw [ih h.2, List.filter_cons_of_neg (by simpa using htypeId),
          List.filter_cons_of_neg (by simpa using hmessage)]

theorem readable_of_visit {walk : Walk} {parts' : Parts}
    (h : walk.visit noteField parts = .ok () parts') :
    ∀ f ∈ walk.fields, f.tag = typeIdTag → ∃ v, varint.eval f.payload = .ok v := by
  obtain ⟨fields, ending⟩ := walk
  induction fields generalizing parts with
  | nil => simp
  | cons f fields ih =>
    rw [Walk.visit_cons] at h
    simp only [bind, EStateM.bind] at h
    cases hstep : noteField f parts with
    | error e t =>
      rw [hstep] at h
      cases h
    | ok _ t =>
      rw [hstep] at h
      refine List.forall_mem_cons.2 ⟨fun htypeId => ?_, ih h⟩
      rw [noteField_typeId htypeId] at hstep
      cases hv : varint.eval f.payload with
      | ok v => exact ⟨v, rfl⟩
      | error e =>
        rw [hv] at hstep
        cases hstep

/-- Whether an occurrence is a part of an item. -/
def isPart (f : Field) : Bool := f.tag = typeIdTag ∨ f.tag = messageTag

/-- Occurrences that are no parts are passed over. -/
theorem visit_filter (fields : List Field) (parts : Parts) :
    Walk.visit ⟨fields.filter isPart, .complete⟩ noteField parts =
      Walk.visit ⟨fields, .complete⟩ noteField parts := by
  induction fields generalizing parts with
  | nil => rfl
  | cons f fields ih =>
    by_cases hpart : isPart f = true
    · rw [List.filter_cons_of_pos hpart, Walk.visit_cons, Walk.visit_cons]
      simp only [bind, EStateM.bind, ih]
    · have hnone : ¬ (f.tag = typeIdTag ∨ f.tag = messageTag) := by simpa [isPart] using hpart
      rw [not_or] at hnone
      rw [List.filter_cons_of_neg hpart, Walk.visit_cons, ih]
      simp only [bind, EStateM.bind]
      rw [noteField_other hnone.1 hnone.2]

theorem mem_of_getLast?_filter {tag : Tag}
    (h : (fields.filter (·.tag = tag)).getLast? = some f) : f ∈ fields ∧ f.tag = tag := by
  simpa using List.mem_filter.1 (List.mem_of_getLast? h)

/-! ## Items -/

theorem ofParts_eq_ok_iff :
    ofParts parts = .ok item ↔
      parts.typeId? = some item.typeId ∧ item.typeId ≠ 0 ∧ parts.encoded? = some item.encoded := by
  obtain ⟨typeId, encoded⟩ := item
  obtain ⟨typeId?, encoded?⟩ := parts
  cases typeId? with
  | none => simp [ofParts]
  | some t =>
    by_cases ht : t = 0
    · simp only [ofParts, if_pos ht]
      grind
    · cases encoded? <;> simp only [ofParts, if_neg ht] <;> grind

/-- A type id in its place is the bytes of a number, which may be too large. -/
theorem varint_eval_of_tag (hf : f.IsEncoded) (htag : f.tag = typeIdTag) {v : UInt64} :
    varint.eval f.payload = .ok v ↔ Encodes64 f.payload v.toNat := by
  have hpayload := hf.payload
  rw [htag, if_neg (by decide)] at hpayload
  obtain ⟨⟨hnumber, -⟩⟩ : IsPayload .varint f.payload := hpayload
  exact varint_eval_eq_ok_iff hnumber

theorem exists_varint_eval_iff (hf : f.IsEncoded) (htag : f.tag = typeIdTag) :
    (∃ v, varint.eval f.payload = .ok v) ↔ ∃ n, Encodes64 f.payload n := by
  constructor
  · rintro ⟨v, hv⟩
    exact ⟨_, (varint_eval_of_tag hf htag).1 hv⟩
  · rintro ⟨n, hn⟩
    refine ⟨UInt64.ofNat n, (varint_eval_of_tag hf htag).2 ?_⟩
    rwa [UInt64.toNat_ofNat_of_lt' hn.lt]

theorem toNat_lowBits (hf : f.IsEncoded) (htag : f.tag = typeIdTag) {n : Nat}
    (h : Encodes64 f.payload n) : (lowBits f).toNat = n % 2 ^ 32 := by
  have hn : (UInt64.ofNat n).toNat = n := UInt64.toNat_ofNat_of_lt' h.lt
  rw [lowBits, (varint_eval_of_tag hf htag).2 (hn.symm ▸ h)]
  dsimp only
  rw [UInt64.toNat_toUInt32, hn]

section

variable (h : MadeOf contents fields)
include h

theorem parse_of_readable
    (hread : ∀ f ∈ fields, f.tag = typeIdTag → ∃ v, varint.eval f.payload = .ok v) :
    parse contents =
      ofParts ⟨(fields.filter (·.tag = typeIdTag)).getLast?.map lowBits,
        (fields.filter (·.tag = messageTag)).getLast?.map Field.payload⟩ := by
  rw [parse, Walk.ofMessage_eq_iff.2 h, visit_noteField hread]
  simp only [Option.or_none, List.getLast?_map]

theorem readable_of_parse (hparse : parse contents = .ok item) :
    ∀ f ∈ fields, f.tag = typeIdTag → ∃ v, varint.eval f.payload = .ok v := by
  rw [parse, Walk.ofMessage_eq_iff.2 h] at hparse
  split at hparse
  next hvisit => exact readable_of_visit hvisit
  next => cases hparse

/-- Contents that are made up of occurrences are those of the item that has their last parts. -/
theorem MadeOf.parse_eq_ok_iff : parse contents = .ok item ↔ HasParts fields item := by
  constructor
  · intro hparse
    have hread := readable_of_parse h hparse
    rw [parse_of_readable h hread, ofParts_eq_ok_iff] at hparse
    obtain ⟨htypeId, hne, hencoded⟩ := hparse
    obtain ⟨f, hlast, hlow⟩ := Option.map_eq_some_iff.1 htypeId
    obtain ⟨hf, htag⟩ := mem_of_getLast?_filter hlast
    have hnumber : ∀ f ∈ fields, f.tag = typeIdTag → ∃ n, Encodes64 f.payload n :=
      fun f hf htag => (exists_varint_eval_iff (h.isEncoded f hf) htag).1 (hread f hf htag)
    obtain ⟨n, hn⟩ := hnumber f hf htag
    refine ⟨hnumber, ⟨f, n, hlast, hn, ?_⟩, hne, Option.map_eq_some_iff.1 hencoded⟩
    rw [← hlow, toNat_lowBits (h.isEncoded f hf) htag hn]
  · rintro ⟨hnumber, ⟨f, n, hlast, hn, hlow⟩, hne, hencoded⟩
    obtain ⟨hf, htag⟩ := mem_of_getLast?_filter hlast
    have htypeId : lowBits f = item.typeId := by
      rw [← UInt32.toNat_inj, hlow, toNat_lowBits (h.isEncoded f hf) htag hn]
    rw [parse_of_readable h fun f hf htag =>
      (exists_varint_eval_iff (h.isEncoded f hf) htag).2 (hnumber f hf htag)]
    exact ofParts_eq_ok_iff.2
      ⟨Option.map_eq_some_iff.2 ⟨f, hlast, htypeId⟩, hne, Option.map_eq_some_iff.2 hencoded⟩

/-- Occurrences that are no parts do not matter, also if the contents are refused. -/
theorem parse_filter : parse ((fields.filter isPart).flatMap Field.bytes) = parse contents := by
  have hfilter : MadeOf ((fields.filter isPart).flatMap Field.bytes) (fields.filter isPart) :=
    ⟨fun f hf => h.isEncoded f (List.mem_of_mem_filter hf), rfl⟩
  rw [parse, parse, Walk.ofMessage_eq_iff.2 hfilter, Walk.ofMessage_eq_iff.2 h, visit_filter]

end

theorem exists_madeOf_of_parse (h : parse contents = .ok item) :
    ∃ fields, MadeOf contents fields := by
  rw [parse] at h
  split at h
  next hvisit =>
    exact ⟨_, Walk.ofMessage_eq_iff.1 (congrArg (Walk.mk _) (Walk.ending_of_visit_ok hvisit))⟩
  next => cases h

theorem parse_eq_ok_iff :
    parse contents = .ok item ↔ ∃ fields, MadeOf contents fields ∧ HasParts fields item := by
  constructor
  · intro h
    obtain ⟨fields, hfields⟩ := exists_madeOf_of_parse h
    exact ⟨fields, hfields, (MadeOf.parse_eq_ok_iff hfields).1 h⟩
  · rintro ⟨fields, hfields, hparts⟩
    exact (MadeOf.parse_eq_ok_iff hfields).2 hparts

/-- The message of an item is what stands behind its length. -/
theorem exists_message_of_parse (h : parse contents = .ok item) :
    ∃ lead message, Encodes32 lead message.length ∧ item.encoded = lead ++ message ∧
      item.message = .ok message := by
  obtain ⟨fields, hfields, hparts⟩ := parse_eq_ok_iff.1 h
  obtain ⟨f, hlast, hencoded⟩ := hparts.encoded
  obtain ⟨hf, htag⟩ := mem_of_getLast?_filter hlast
  have hpayload := (hfields.isEncoded f hf).payload
  rw [htag, if_neg (by decide), hencoded] at hpayload
  obtain ⟨lead, message, hlead, hbytes⟩ := hpayload.exists_delimited
  refine ⟨lead, message, hlead, hbytes, ?_⟩
  have hreads : delimitedParts (lead ++ message) = .ok (lead, message) [] :=
    delimitedParts_eq_ok_iff.2 ⟨(List.append_nil _).symm, hlead⟩
  rw [MessageSetItem.message, lengthDelimited, eval_map, hbytes, Read.eval, hreads]
  rfl

/-- An item is parsed by its last parts: it is that of contents that are made up of occurrences, the
last of whose type ids, all of which must be numbers, has its type id in the low bits, which are not
0, and the last of whose messages is its message with the length. What is no such part has no
influence on the outcome, and every item that has been parsed gives its message. -/
theorem parse_last_parts (contents : Bytes) :
    (∀ item, parse contents = .ok item ↔
      ∃ fields, MadeOf contents fields ∧ HasParts fields item) ∧
    (∀ fields, MadeOf contents fields →
      parse ((fields.filter isPart).flatMap Field.bytes) = parse contents) ∧
    ∀ item, parse contents = .ok item →
      ∃ lead message, Encodes32 lead message.length ∧ item.encoded = lead ++ message ∧
        item.message = .ok message :=
  ⟨fun _ => parse_eq_ok_iff, fun _ => parse_filter, fun _ => exists_message_of_parse⟩

/-- A type id and a message that do not count, one of each that does, and a field 2 and a field 3 of
other wire types. -/
example :
    parse [0x10, 0x07, 0x1a, 0x00, 0x15, 0x01, 0x02, 0x03, 0x04, 0x10, 0x2a, 0x18, 0x09, 0x1a, 0x01,
      0x05] = .ok ⟨42, [0x01, 0x05]⟩ := by
  cbv

end MessageSetItem

end WireColumns
