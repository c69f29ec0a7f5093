import WireColumns.Proofs.Column.Slots

/-! # Singular and repeated fields

A singular field is the last of a repeated one: what is decoded if a field is singular is what is
decoded if it is repeated, where its column keeps the last value of each parent only
(`Decoder.decode_singular`). Whether a field is repeated plays no part in which messages are refused
and why, since that depends on the numbers and kinds of the fields alone
(`Decoder.decode_alike_of_kinds`). -/

namespace WireColumns

/-! ## The last values -/

/-- The entries behind which there is none of the same parent. -/
def lastOfEach : List (Value × Int) → List (Value × Int)
  | [] => []
  | e :: rest => if e.2 ∈ rest.map Prod.snd then lastOfEach rest else e :: lastOfEach rest

/-- The column with only the last value of each parent. -/
def Column.lastPerParent (c : Column) : Column :=
  let entries := lastOfEach (c.values.zip c.parents)
  { c with values := entries.map Prod.fst, parents := entries.map Prod.snd }

/-- The batch in which the column of a slot keeps only the last value of each parent. -/
def Batch.lastPerParentAt (slot : Nat) (batch : Batch) : Batch :=
  { batch with columns := batch.columns.modify slot Column.lastPerParent }

/-- Of the values of one message the last one is left, if no other message has its index. -/
theorem lastOfEach_append {parent : Int} {rest : List (Value × Int)}
    (h : parent ∉ rest.map Prod.snd) (values : List Value) :
    lastOfEach (values.map (·, parent) ++ rest) =
      values.getLast?.toList.map (·, parent) ++ lastOfEach rest := by
  induction values with
  | nil => rfl
  | cons v values ih =>
    rw [List.map_cons, List.cons_append, lastOfEach]
    cases values with
    | nil => simp [h]
    | cons w values =>
      rw [if_pos (by simp), ih, List.getLast?_cons_cons]

/-- The entries of a singular field are the last ones of a repeated field. -/
theorem lastOfEach_entriesFrom (first : Nat) (messages : List (List Value)) :
    lastOfEach (entriesFrom true first messages) = entriesFrom false first messages := by
  induction messages generalizing first with
  | nil => rfl
  | cons values messages ih =>
    have hnew : (first : Int) ∉ (entriesFrom true (first + 1) messages).map Prod.snd := by
      intro hmem
      obtain ⟨e, he, hparent⟩ := List.mem_map.1 hmem
      obtain ⟨i, -, -, hindex, -⟩ := mem_entriesFrom he
      omega
    rw [entriesFrom_cons, entriesFrom_cons, ← ih]
    exact lastOfEach_append hnew values

namespace Collector

theorem lastPerParent_gather (spec : FieldSpec) (messages : List (List Value))
    (ownership : Ownership) :
    (((ofSpec { spec with repeated := true }).gather 0 messages).toColumn ownership).lastPerParent =
      ((ofSpec { spec with repeated := false }).gather 0 messages).toColumn ownership := by
  have hzip : ∀ entries : List (Value × Int),
      (entries.map Prod.fst).zip (entries.map Prod.snd) = entries := fun entries => by
    rw [List.zip_map', List.map_id'']
    exact fun _ => rfl
  simp [Column.lastPerParent, toColumn, gather, ofSpec, hzip, lastOfEach_entriesFrom]

end Collector

/-- Two results fail for the same reason, or both are there. -/
def EndAlike {ε α β : Type} (x : Except ε α) (y : Except ε β) : Prop :=
  (∃ e, x = .error e ∧ y = .error e) ∨ ∃ a b, x = .ok a ∧ y = .ok b

namespace Decoder

open Collector

variable {d d' : Decoder} {s s' : Session} {fields fields' : List FieldSpec}
  {options : DecodeOptions} {messages : List Bytes} {batch batch' : Batch}

/-! ## Decoders of fields of the same kinds -/

theorem kinds_start (d : Decoder) :
    kinds d.start.collectors = d.requests.map fun r => (r.spec.number, r.spec.kind) := by
  simp [kinds, start, ofSpec]

section

variable (hd : d.Valid) (hd' : d'.Valid) (hoptions : d.options = d'.options)
  (hkinds : kinds d.start.collectors = kinds d'.start.collectors)

include hkinds in
theorem Fits.sameKinds (hs : d.Fits s) (hs' : d'.Fits s') :
    SameKinds s.collectors s'.collectors := by
  refine ⟨?_, hs.same.nodup⟩
  rw [hs.same.sameKinds.kinds_eq, hkinds, hs'.same.sameKinds.kinds_eq]

include hd hd' hoptions hkinds

theorem dispatched_agree (hs : d.Fits s) (hs' : d'.Fits s') (m : Bytes) :
    Agree SameKinds (d.dispatched s m) (d'.dispatched s' m) := by
  rw [hs.dispatched_eq hd, hs'.dispatched_eq hd', hoptions]
  exact lookupMessage_agree (hs.sameKinds hkinds hs') ..

theorem rejects_eq_of_kinds (m : Bytes) : d.rejects m = d'.rejects m := by
  rw [rejects_eq, rejects_eq]
  exact (dispatched_agree hd hd' hoptions hkinds hd.fits_start hd'.fits_start m).isFailure_eq

theorem worth_eq_of_kinds (m : Bytes) : d.worth m = d'.worth m := by
  funext number kind
  rw [worth, worth, rejects_eq_of_kinds hd hd' hoptions hkinds, hoptions]

/-- The next message fails for both decoders or for none of them. -/
theorem consume_alike_of_kinds (hs : d.Fits s) (hs' : d'.Fits s') (m : Bytes) :
    EndAlike (d.consume s m) (d'.consume s' m) := by
  obtain ⟨cs, cs', h, h'⟩ | ⟨e, cs, cs', h, h'⟩ :=
    (dispatched_agree hd hd' hoptions hkinds hs hs' m).ok_or_error
  · exact .inr ⟨_, _, consume_of_dispatched h, consume_of_dispatched h'⟩
  · rw [consume_of_dispatched_error hd hs h, consume_of_dispatched_error hd' hs' h', refuse, refuse,
      hoptions]
    cases d'.options.onCorrupt with
    | fail => exact .inl ⟨e, rfl, rfl⟩
    | skip => exact .inr ⟨_, _, rfl, rfl⟩

theorem foldlM_alike_of_kinds (hs : d.Fits s) (hs' : d'.Fits s') (messages : List Bytes) :
    EndAlike (messages.foldlM d.consume s) (messages.foldlM d'.consume s') := by
  induction messages generalizing s s' with
  | nil => exact .inr ⟨s, s', rfl, rfl⟩
  | cons m messages ih =>
    rw [List.foldlM_cons, List.foldlM_cons]
    obtain ⟨e, h, h'⟩ | ⟨s₁, s₁', h, h'⟩ := consume_alike_of_kinds hd hd' hoptions hkinds hs hs' m
    · rw [h, h']
      exact .inl ⟨e, rfl, rfl⟩
    · rw [h, h']
      exact ih (hs.consume hd h) (hs'.consume hd' h')

/-- A batch fails for both decoders, with the same error, or for none of them. -/
theorem decode_alike_of_kinds (messages : List Bytes) :
    EndAlike (d.decode messages) (d'.decode messages) := by
  rw [decode, decode]
  obtain ⟨e, h, h'⟩ | ⟨s₁, s₁', h, h'⟩ :=
    foldlM_alike_of_kinds hd hd' hoptions hkinds hd.fits_start hd'.fits_start messages
  · rw [h, h']
    exact .inl ⟨.corrupt e, rfl, rfl⟩
  · rw [h, h']
    exact .inr ⟨_, _, rfl, rfl⟩

end

/-! ## One field, repeated or not -/

theorem kinds_perm_of_ofFields (hd : ofFields fields options = .ok d) :
    (kinds d.start.collectors).Perm (fields.map fun spec => (spec.number, spec.kind)) := by
  obtain ⟨-, -, -, rfl⟩ := ofFields_eq_ok_iff.1 hd
  rw [kinds_start, ← map_spec_requestsOf]
  exact (perm_sortedRequests fields).map _

/-- Decoders of fields of the same numbers and kinds have them in the same order. -/
theorem kinds_eq_of_ofFields (hd : ofFields fields options = .ok d)
    (hd' : ofFields fields' options = .ok d')
    (h : (fields.map fun spec => (spec.number, spec.kind)) =
      fields'.map fun spec => (spec.number, spec.kind)) :
    kinds d.start.collectors = kinds d'.start.collectors := by
  have hsorted : ∀ {d : Decoder}, d.Valid →
      (kinds d.start.collectors).Pairwise fun a b => a.1 < b.1 := fun hd => by
    rw [← List.pairwise_map, map_fst_kinds, numbers_start]
    exact hd.ascending
  have hperm := (kinds_perm_of_ofFields hd).trans (h ▸ (kinds_perm_of_ofFields hd').symm)
  exact hperm.eq_of_pairwise (fun a b _ _ hab hba => absurd hab (UInt32.lt_asymm hba))
    (hsorted (valid_of_ofFields hd)) (hsorted (valid_of_ofFields hd'))

theorem set_eq_self {α : Type} {l : List α} {i : Nat} {a : α} (h : l[i]? = some a) :
    l.set i a = l := by
  obtain ⟨hlt, rfl⟩ := List.getElem?_eq_some_iff.1 h
  exact List.set_getElem_self hlt

/-- Whether a field is repeated plays no part in which fields can be requested together. -/
theorem Requestable.set (h : Requestable fields) {i : Nat} {spec : FieldSpec}
    (hi : fields[i]? = some spec) (repeated : Bool) :
    Requestable (fields.set i { spec with repeated }) := by
  have hmem : spec ∈ fields := List.mem_of_getElem? hi
  refine ⟨fun spec' hspec' => ?_, fun spec' hspec' => ?_, ?_, ?_⟩
  · obtain hspec' | rfl := List.mem_or_eq_of_mem_set hspec'
    · exact h.number_in_range spec' hspec'
    · exact h.number_in_range spec hmem
  · obtain hspec' | rfl := List.mem_or_eq_of_mem_set hspec'
    · exact h.type_produced spec' hspec'
    · exact h.type_produced spec hmem
  · rw [List.map_set, set_eq_self (by rw [List.getElem?_map, hi]; rfl)]
    exact h.numbers_nodup
  · rw [List.mapIdx_set, set_eq_self (by rw [List.getElem?_mapIdx, hi]; rfl), List.length_set]
    exact h.slots_perm

section

variable {i : Nat} {spec : FieldSpec} (hi : fields[i]? = some spec)
include hi

theorem map_set_repeated {α : Type} {f : FieldSpec → α}
    (hf : ∀ spec repeated, f { spec with repeated } = f spec) (repeated : Bool) :
    (fields.set i { spec with repeated }).map f = fields.map f := by
  rw [List.map_set, hf, set_eq_self]
  rw [List.getElem?_map, hi]
  rfl

/-- The field of any other slot is the same in both lists. -/
theorem getElem?_set_of_slot_ne {j : Nat} {given : FieldSpec}
    (hj : (fields.set i { spec with repeated := true })[j]? = some given)
    (hslot : spec.output?.getD i ≠ given.output?.getD j) :
    (fields.set i { spec with repeated := false })[j]? = some given := by
  have hne : i ≠ j := by
    rintro rfl
    rw [List.getElem?_set_self (List.getElem?_eq_some_iff.1 hi).1] at hj
    exact hslot (by rw [← Option.some.inj hj])
  rwa [List.getElem?_set_ne hne, ← List.getElem?_set_ne hne] at hj

variable (hd : ofFields (fields.set i { spec with repeated := true }) options = .ok d)
  (hd' : ofFields (fields.set i { spec with repeated := false }) options = .ok d')
include hd hd'

theorem kinds_eq_of_set_repeated :
    kinds d.start.collectors = kinds d'.start.collectors := by
  have hsame : ∀ (spec : FieldSpec) (repeated : Bool),
      (({ spec with repeated } : FieldSpec).number, ({ spec with repeated } : FieldSpec).kind) =
        (spec.number, spec.kind) := fun _ _ => rfl
  exact kinds_eq_of_ofFields hd hd'
    ((map_set_repeated hi hsame true).trans (map_set_repeated hi hsame false).symm)

theorem lastPerParentAt_of_decode (h : d.decode messages = .ok batch)
    (h' : d'.decode messages = .ok batch') :
    batch' = batch.lastPerParentAt (spec.output?.getD i) := by
  have hvalid := valid_of_ofFields hd
  have hvalid' := valid_of_ofFields hd'
  have hkinds := kinds_eq_of_set_repeated hi hd hd'
  have hoptions : d.options = d'.options :=
    (options_of_ofFields hd).trans (options_of_ofFields hd').symm
  have hworth : d.worth = d'.worth :=
    funext (worth_eq_of_kinds hvalid hvalid' hoptions hkinds)
  have hrejects : d.rejects = d'.rejects :=
    funext (rejects_eq_of_kinds hvalid hvalid' hoptions hkinds)
  have hlt : i < fields.length := (List.getElem?_eq_some_iff.1 hi).1
  have hself := at_slot_of_decode hd h (List.getElem?_set_self hlt)
  have hself' := at_slot_of_decode hd' h' (List.getElem?_set_self hlt)
  obtain ⟨hcount, hcorrupt, -⟩ := gathered_of_decode hd h
  obtain ⟨hcount', hcorrupt', -⟩ := gathered_of_decode hd' h'
  have hlen : fields.length = d.requests.length := by
    rw [length_requests_of_ofFields hd, List.length_set]
  have hnumbers : batch'.numbers = batch.numbers := by
    refine hvalid.eq_of_slots ?_ ?_ fun k r hr => ?_
    · rw [length_numbers_of_decode hd' h', List.length_set, hlen]
    · rw [length_numbers_of_decode hd h, List.length_set, hlen]
    · obtain ⟨j, hj, hr⟩ := exists_field_of_request hd (List.mem_of_getElem? hr)
      rw [← hr]
      by_cases hslot : spec.output?.getD i = r.spec.output?.getD j
      · rw [← hslot, hself.1, hself'.1]
      · have hj' := getElem?_set_of_slot_ne hi hj hslot
        rw [(at_slot_of_decode hd h hj).1, (at_slot_of_decode hd' h' hj').1]
  have hcolumns : batch'.columns =
      batch.columns.modify (spec.output?.getD i) Column.lastPerParent := by
    refine hvalid.eq_of_slots ?_ ?_ fun k r hr => ?_
    · rw [length_columns_of_decode hd' h', List.length_set, hlen]
    · rw [List.length_modify, length_columns_of_decode hd h, List.length_set, hlen]
    · obtain ⟨j, hj, hr⟩ := exists_field_of_request hd (List.mem_of_getElem? hr)
      rw [← hr]
      by_cases hslot : spec.output?.getD i = r.spec.output?.getD j
      · rw [← hslot, List.getElem?_modify_eq, hself.2, hself'.2, hworth]
        exact congrArg some (lastPerParent_gather spec _ _).symm
      · have hj' := getElem?_set_of_slot_ne hi hj hslot
        rw [List.getElem?_modify_ne _ _ hslot, (at_slot_of_decode hd h hj).2,
          (at_slot_of_decode hd' h' hj').2, hworth]
  calc batch' = ⟨batch'.numbers, batch'.columns, batch'.messageCount, batch'.corruptCount⟩ := rfl
    _ = batch.lastPerParentAt (spec.output?.getD i) := by
      rw [hnumbers, hcolumns, hcount', hcorrupt', ← hrejects, ← hcount, ← hcorrupt]
      rfl

end

/-- A singular field is the last of a repeated one. If a field is made singular instead of repeated,
with all other fields and the options kept, then the decoder can be made just as well, it fails at
the same batches with the same error, and of the column of the field it keeps the last value of each
parent. Nothing else of the batch changes. -/
theorem decode_singular {i : Nat} {spec : FieldSpec} (hi : fields[i]? = some spec) :
    ((∃ d, ofFields (fields.set i { spec with repeated := true }) options = .ok d) ↔
      ∃ d', ofFields (fields.set i { spec with repeated := false }) options = .ok d') ∧
    ∀ d d', ofFields (fields.set i { spec with repeated := true }) options = .ok d →
      ofFields (fields.set i { spec with repeated := false }) options = .ok d' →
      ∀ messages, d'.decode messages =
        (d.decode messages).map (·.lastPerParentAt (spec.output?.getD i)) := by
  have hlt : i < fields.length := (List.getElem?_eq_some_iff.1 hi).1
  constructor
  · rw [exists_ofFields_iff, exists_ofFields_iff]
    constructor
    · intro h
      have hset := h.set (List.getElem?_set_self hlt) false
      rwa [List.set_set] at hset
    · intro h
      have hset := h.set (List.getElem?_set_self hlt) true
      rwa [List.set_set] at hset
  · intro d d' hd hd' messages
    have hoptions : d.options = d'.options :=
      (options_of_ofFields hd).trans (options_of_ofFields hd').symm
    obtain ⟨e, h, h'⟩ | ⟨batch, batch', h, h'⟩ := decode_alike_of_kinds (valid_of_ofFields hd)
      (valid_of_ofFields hd') hoptions (kinds_eq_of_set_repeated hi hd hd') messages
    · rw [h, h']
      rfl
    · rw [h, h', lastPerParentAt_of_decode hi hd hd' h h']
      rfl

/-- Three messages: a packed run and a single value, a value in front of a truncated one, and a
packed run. The second message is skipped. -/
theorem decode_singular_mixed :
    [⟨5, .int32, true, some 1, none⟩, ⟨1, .bool, true, some 0, none⟩][0]? =
        some (⟨5, .int32, true, some 1, none⟩ : FieldSpec) ∧
      ofFields [⟨5, .int32, true, some 1, none⟩, ⟨1, .bool, true, some 0, none⟩]
          { onCorrupt := .skip } =
        .ok ⟨[⟨⟨1, .bool, true, some 0, none⟩, 0⟩, ⟨⟨5, .int32, true, some 1, none⟩, 1⟩],
          { onCorrupt := .skip }⟩ ∧
      decode ⟨[⟨⟨1, .bool, true, some 0, none⟩, 0⟩, ⟨⟨5, .int32, false, some 1, none⟩, 1⟩],
          { onCorrupt := .skip }⟩
          [[0x2A, 2, 1, 2, 8, 1, 0x28, 7], [0x28, 3, 0x28, 255], [0x2A, 2, 8, 9]] =
        .ok ⟨[1, 5], [⟨.bool, .borrowed, [.bool true], [0]⟩,
          ⟨.int32, .borrowed, [.int32 7, .int32 9], [0, 2]⟩], 3, 1⟩ := by
  have hi : [⟨5, .int32, true, some 1, none⟩, ⟨1, .bool, true, some 0, none⟩][0]? =
      some (⟨5, .int32, true, some 1, none⟩ : FieldSpec) := rfl
  have hd : ofFields [⟨5, .int32, true, some 1, none⟩, ⟨1, .bool, true, some 0, none⟩]
      { onCorrupt := .skip } =
      .ok ⟨[⟨⟨1, .bool, true, some 0, none⟩, 0⟩, ⟨⟨5, .int32, true, some 1, none⟩, 1⟩],
        { onCorrupt := .skip }⟩ := by cbv
  have hd' : ofFields [⟨5, .int32, false, some 1, none⟩, ⟨1, .bool, true, some 0, none⟩]
      { onCorrupt := .skip } =
      .ok ⟨[⟨⟨1, .bool, true, some 0, none⟩, 0⟩, ⟨⟨5, .int32, false, some 1, none⟩, 1⟩],
        { onCorrupt := .skip }⟩ := by cbv
  have hbatch : decode
      ⟨[⟨⟨1, .bool, true, some 0, none⟩, 0⟩, ⟨⟨5, .int32, true, some 1, none⟩, 1⟩],
        { onCorrupt := .skip }⟩
      [[0x2A, 2, 1, 2, 8, 1, 0x28, 7], [0x28, 3, 0x28, 255], [0x2A, 2, 8, 9]] =
      .ok ⟨[1, 5], [⟨.bool, .borrowed, [.bool true], [0]⟩,
        ⟨.int32, .borrowed, [.int32 1, .int32 2, .int32 7, .int32 8, .int32 9],
          [0, 0, 0, 2, 2]⟩], 3, 1⟩ := by cbv
  have hsingular := (decode_singular hi).2 _ _ hd hd'
    [[0x2A, 2, 1, 2, 8, 1, 0x28, 7], [0x28, 3, 0x28, 255], [0x2A, 2, 8, 9]]
  rw [hbatch] at hsingular
  exact ⟨hi, hd, hsingular⟩

end Decoder

end WireColumns
