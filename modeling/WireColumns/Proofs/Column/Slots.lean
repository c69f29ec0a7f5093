import WireColumns.Proofs.Column.Pulling
import WireColumns.Proofs.Column.Ragged

/-! # Output slots

Which lists of fields a decoder can be made of (`Decoder.exists_ofFields_iff`), and that the field
of a slot, its number and its column all stand at that slot (`Decoder.columns_at_their_slots`).

A decoder can also keep a table that tells for every output slot the place of its request. The table
is filled in request by request (`Decoder.fillSlots`), and the columns are taken one by one from the
places it names (`Decoder.takeItems`). The messages can be pulled from readers that object to misuse
(`Decoder.consumeChecked`). Decoding in this way, with a check at every step
(`Decoder.decodeChecked`), is the same as putting what has been collected in output order: for a
decoder that has been made, none of these checks fails (`Decoder.Valid.decodeChecked_eq`). -/

namespace WireColumns

theorem FieldSpec.validate_eq_ok_iff {spec : FieldSpec} :
    spec.validate = .ok () ↔
      1 ≤ spec.number.toNat ∧ spec.number.toNat ≤ 2 ^ 29 - 1 ∧
        ∀ type, spec.valueType? = some type → type = spec.kind.valueType := by
  have hnumber : spec.number = 0 ∨ Tag.maxNumber < spec.number ↔
      ¬ (1 ≤ spec.number.toNat ∧ spec.number.toNat ≤ 2 ^ 29 - 1) := by
    rw [← UInt32.toNat_inj, UInt32.lt_iff_toNat_lt]
    simp only [UInt32.toNat_zero, show Tag.maxNumber.toNat = 2 ^ 29 - 1 from rfl]
    omega
  rw [← and_assoc]
  by_cases h : 1 ≤ spec.number.toNat ∧ spec.number.toNat ≤ 2 ^ 29 - 1
  · rw [validate, if_neg (mt hnumber.1 (not_not.2 h)), and_iff_right h]
    cases spec.valueType? with
    | none => simp
    | some type => by_cases htype : type = spec.kind.valueType <;> simp [htype]
  · rw [validate, if_pos (hnumber.2 h)]
    exact iff_of_false (by simp) fun hspec => h hspec.1

namespace Decoder

open Collector

variable {d : Decoder} {fields : List FieldSpec} {options : DecodeOptions} {messages : List Bytes}
  {batch : Batch}

/-! ## Which fields make a decoder -/

theorem perm_sortedRequests (fields : List FieldSpec) :
    (sortedRequests fields).Perm (requestsOf fields) := List.mergeSort_perm ..

theorem map_requestsOf {α : Type} (f : Request → α) (fields : List FieldSpec) :
    (requestsOf fields).map f = fields.mapIdx fun i spec => f ⟨spec, spec.output?.getD i⟩ := by
  refine List.ext_getElem? fun i => ?_
  simp only [requestsOf, List.getElem?_map, List.getElem?_mapIdx, Option.map_map]
  rfl

theorem map_spec_requestsOf {α : Type} (f : FieldSpec → α) (fields : List FieldSpec) :
    (requestsOf fields).map (fun r => f r.spec) = fields.map f := by
  rw [map_requestsOf]
  refine List.ext_getElem? fun i => ?_
  simp only [List.getElem?_mapIdx, List.getElem?_map]

theorem duplicate?_sortedRequests_iff :
    duplicate? ((sortedRequests fields).map (·.spec.number)) = none ↔
      (fields.map (·.number)).Nodup := by
  have hsorted := pairwise_sortedRequests fields
  have hperm : ((sortedRequests fields).map (·.spec.number)).Perm (fields.map (·.number)) := by
    have hrequests := (perm_sortedRequests fields).map (·.spec.number)
    rwa [map_spec_requestsOf] at hrequests
  rw [duplicate?_eq_none_iff hsorted, ← hperm.nodup_iff]
  constructor
  · exact fun h => h.imp fun hlt => UInt32.ne_of_lt hlt
  · exact fun h => hsorted.imp₂ (fun _ _ hle hne => UInt32.lt_of_le_of_ne hle hne) h

theorem checkSlots_sortedRequests_iff :
    checkSlots fields.length [] (sortedRequests fields) = .ok () ↔
      (fields.mapIdx fun i spec => spec.output?.getD i).Perm (List.range fields.length) := by
  have hperm : ((sortedRequests fields).map Request.slot).Perm
      (fields.mapIdx fun i spec => spec.output?.getD i) := by
    have hrequests := (perm_sortedRequests fields).map Request.slot
    rwa [map_requestsOf] at hrequests
  rw [checkSlots_eq_ok_iff, perm_range_iff (by simp), ← hperm.nodup_iff]
  simp [← hperm.mem_iff]

/-- Fields that can be requested together: each is acceptable by itself, no number occurs twice, and
the output slots are the places of the list in some order. -/
structure Requestable (fields : List FieldSpec) : Prop where
  number_in_range : ∀ spec ∈ fields, 1 ≤ spec.number.toNat ∧ spec.number.toNat ≤ 2 ^ 29 - 1
  type_produced : ∀ spec ∈ fields, ∀ type, spec.valueType? = some type →
    type = spec.kind.valueType
  numbers_nodup : (fields.map (·.number)).Nodup
  slots_perm : (fields.mapIdx fun i spec => spec.output?.getD i).Perm (List.range fields.length)

theorem exists_ofFields_iff : (∃ d, ofFields fields options = .ok d) ↔ Requestable fields := by
  simp only [ofFields_eq_ok_iff, exists_and_left, exists_eq, and_true,
    FieldSpec.validate_eq_ok_iff, duplicate?_sortedRequests_iff, checkSlots_sortedRequests_iff]
  constructor
  · rintro ⟨hspecs, hnumbers, hslots⟩
    exact ⟨fun spec h => ⟨(hspecs spec h).1, (hspecs spec h).2.1⟩,
      fun spec h => (hspecs spec h).2.2, hnumbers, hslots⟩
  · rintro ⟨hrange, htype, hnumbers, hslots⟩
    exact ⟨fun spec h => ⟨(hrange spec h).1, (hrange spec h).2, htype spec h⟩, hnumbers, hslots⟩

/-- The field of every slot. -/
theorem getElem?_fields_iff (hd : ofFields fields options = .ok d) {slot : Nat} {spec : FieldSpec} :
    d.fields[slot]? = some spec ↔
      ∃ (i : Nat) (given : FieldSpec), fields[i]? = some given ∧ given.output?.getD i = slot ∧
        spec = { given with output? := some slot } := by
  constructor
  · intro h
    rw [Decoder.fields, inOutputOrder_map, List.getElem?_map, Option.map_eq_some_iff] at h
    obtain ⟨r, hr, rfl⟩ := h
    obtain ⟨hmem, rfl⟩ := mem_of_getElem?_inOutputOrder (valid_of_ofFields hd) hr
    obtain ⟨i, hi, hslot⟩ := exists_field_of_request hd hmem
    exact ⟨i, r.spec, hi, hslot, rfl⟩
  · rintro ⟨i, given, hi, rfl, rfl⟩
    exact getElem?_inOutputOrder_map hd hi fun r => { r.spec with output? := some r.slot }

/-! ## The table of places -/

/-- Notes the places of requests at their slots, the first of which has the given place. A slot
must be one of the table and be free. -/
def fillSlots (table : List (Option Nat)) (place : Nat) :
    List Request → Except Error (List (Option Nat))
  | [] => .ok table
  | r :: rest =>
    match table[r.slot]? with
    | none => .error (.invalidArgument (.outputOutOfRange r.slot r.spec.number table.length))
    | some (some _) => .error (.invalidArgument (.duplicateOutput r.slot))
    | some none => fillSlots (table.set r.slot (some place)) (place + 1) rest

/-- Takes the items from the places that a table names, each of them once. The first slot of the
table has the given number. -/
def takeItems {α : Type} (slot : Nat) : List (Option Nat) → List (Option α) → Except Error (List α)
  | [], _ => .ok []
  | place? :: rest, items =>
    match place?.bind fun place => items[place]?.join.map (place, ·) with
    | none => .error (.fault (.missingOutput slot))
    | some (place, item) => do
      let taken ← takeItems (slot + 1) rest (items.set place none)
      return item :: taken

/-- Decodes the next message with a reader. Only a corrupt message may be skipped. -/
def consumeChecked (d : Decoder) (s : Session) (message : Bytes) : Except Error Session :=
  match pullMessage d.options.messageSetItems message s.messageCount s.collectors with
  | .ok _ cs => .ok ⟨cs, s.messageCount + 1, s.corruptCount⟩
  | .error e cs =>
    if d.options.onCorrupt = .skip ∧ e.isCorrupt then
      .ok ⟨truncateAll cs (sizes s.collectors), s.messageCount + 1, s.corruptCount + 1⟩
    else .error e

/-- Decodes a batch with a check wherever one could fail: that every collector is of the type of its
field, that they are sorted by field number, that what is read is there to be read, and that every
slot has a column. -/
def decodeChecked (d : Decoder) (table : List (Option Nat)) (messages : List Bytes) :
    Except Error Batch := do
  let collectors ← d.requests.mapM fun r => ofSpecTyped r.spec.kind.valueType r.spec
  requireSorted collectors
  let session ← messages.foldlM d.consumeChecked ⟨collectors.toArray, 0, 0⟩
  let columns := session.collectors.toList.map fun c => c.toColumn d.options.ownership
  let columns ← takeItems 0 table (columns.map some)
  let numbers ← takeItems 0 table ((d.requests.map (·.spec.number)).map some)
  return ⟨numbers, columns, session.messageCount, session.corruptCount⟩

/-- A table in which the slots taken are filled in accepts the requests that the check of the slots
accepts, and fails with the same error. -/
theorem fillSlots_eq_checkSlots {requests : List Request} {table : List (Option Nat)}
    {taken : List Nat} (h : ∀ s < table.length, table[s]? = some none ↔ s ∉ taken) (place : Nat) :
    (fillSlots table place requests).map (fun _ => ()) =
      checkSlots table.length taken requests := by
  induction requests generalizing table taken place with
  | nil => rfl
  | cons r rest ih =>
    rw [fillSlots, checkSlots]
    by_cases hslot : table.length ≤ r.slot
    · rw [if_pos hslot, List.getElem?_eq_none hslot]
      rfl
    · rw [if_neg hslot]
      have hlt := Nat.not_le.1 hslot
      by_cases htaken : r.slot ∈ taken
      · rw [if_pos htaken]
        have hfilled : table[r.slot]? ≠ some none := fun hnone => (h _ hlt).1 hnone htaken
        cases hplace : table[r.slot] with
        | none => exact absurd (List.getElem?_eq_some_iff.2 ⟨hlt, hplace⟩) hfilled
        | some place' =>
          rw [List.getElem?_eq_some_iff.2 ⟨hlt, hplace⟩]
          rfl
      · rw [if_neg htaken, (h _ hlt).2 htaken]
        have hset : ∀ s < (table.set r.slot (some place)).length,
            (table.set r.slot (some place))[s]? = some none ↔ s ∉ r.slot :: taken := by
          intro s hs
          rw [List.length_set] at hs
          rw [List.getElem?_set, List.mem_cons, not_or, ← h s hs]
          by_cases heq : r.slot = s
          · simp [heq, hs]
          · simp [heq, Ne.symm heq]
        have hrest := ih hset (place + 1)
        rwa [List.length_set] at hrest

/-- What the table holds does not change, and no slot is added or lost. -/
theorem fillSlots_keeps {requests : List Request} {table table' : List (Option Nat)} {place : Nat}
    (h : fillSlots table place requests = .ok table') :
    table'.length = table.length ∧
      ∀ s p : Nat, table[s]? = some (some p) → table'[s]? = some (some p) := by
  induction requests generalizing table place with
  | nil =>
    cases h
    exact ⟨rfl, fun _ _ hp => hp⟩
  | cons r rest ih =>
    rw [fillSlots] at h
    split at h
    next => cases h
    next => cases h
    next hfree =>
      obtain ⟨hlen, hkeeps⟩ := ih h
      refine ⟨hlen.trans List.length_set, fun s p hp => hkeeps s p ?_⟩
      have hne : r.slot ≠ s := by
        rintro rfl
        rw [hfree] at hp
        cases hp
      rwa [List.getElem?_set_ne hne]

/-- Every request's place is found at its slot. -/
theorem getElem?_of_fillSlots {requests : List Request} {table table' : List (Option Nat)}
    {place : Nat} (h : fillSlots table place requests = .ok table') {i : Nat} {r : Request}
    (hr : requests[i]? = some r) : table'[r.slot]? = some (some (place + i)) := by
  induction requests generalizing table place i with
  | nil => cases hr
  | cons r' rest ih =>
    rw [fillSlots] at h
    split at h
    next => cases h
    next => cases h
    next hfree =>
      cases i with
      | zero =>
        obtain rfl := Option.some.inj hr
        refine (fillSlots_keeps h).2 _ _ ?_
        rw [List.getElem?_set_self (List.getElem?_eq_some_iff.1 hfree).1]
        rfl
      | succ i =>
        rw [ih h hr, Nat.add_right_comm]
        rfl

/-- The table of a decoder names for every slot the place of its request. -/
theorem Valid.fillSlots_eq (hd : d.Valid) :
    fillSlots (List.replicate d.requests.length none) 0 d.requests =
      .ok ((d.inOutputOrder (List.range d.requests.length)).map some) := by
  have hverdict : (fillSlots (List.replicate d.requests.length none) 0 d.requests).map
      (fun _ => ()) = checkSlots _ [] d.requests :=
    fillSlots_eq_checkSlots (fun s hs => by simpa [List.getElem?_replicate] using hs) 0
  have hslots : checkSlots d.requests.length [] d.requests = .ok () :=
    checkSlots_eq_ok_iff.2 ⟨fun r hr => ⟨hd.slot_lt r hr, List.not_mem_nil⟩, hd.slots_nodup⟩
  rw [List.length_replicate, hslots] at hverdict
  cases htable : fillSlots (List.replicate d.requests.length none) 0 d.requests with
  | error e =>
    rw [htable] at hverdict
    cases hverdict
  | ok table =>
    have hlen := (fillSlots_keeps htable).1
    rw [List.length_replicate] at hlen
    have hrange : (List.range d.requests.length).length = d.requests.length := List.length_range
    refine congrArg Except.ok (hd.eq_of_slots hlen ?_ fun i r hr => ?_)
    · rw [List.length_map, length_inOutputOrder hrange]
    · rw [getElem?_of_fillSlots htable hr, List.getElem?_map, getElem?_inOutputOrder hd hrange hr,
        List.getElem?_range (List.getElem?_eq_some_iff.1 hr).1, Nat.zero_add]
      rfl

/-! ## Taking what the table names -/

/-- Items that stand at the places named are taken if no place is named twice. -/
theorem takeItems_eq_ok {α : Type} {places : List Nat} {taken : List α} {items : List (Option α)}
    (h : List.Forall₂ (fun place item => items[place]? = some (some item)) places taken)
    (hnodup : places.Nodup) (slot : Nat) :
    takeItems slot (places.map some) items = .ok taken := by
  induction places generalizing items taken slot with
  | nil =>
    cases h
    rfl
  | cons place places ih =>
    obtain ⟨item, taken, hitem, hrest, rfl⟩ := List.forall₂_cons_left_iff.1 h
    rw [List.nodup_cons] at hnodup
    -- the places still to come keep their items, as none of them is the one just emptied
    have hkept : List.Forall₂ (fun p a => (items.set place none)[p]? = some (some a))
        places taken := by
      refine List.forall₂_iff_zip.2 ⟨hrest.length_eq, @fun p a hmem => ?_⟩
      have hne : place ≠ p := fun heq => hnodup.1 (heq ▸ (List.of_mem_zip hmem).1)
      rw [List.getElem?_set_ne hne]
      exact (List.forall₂_iff_zip.1 hrest).2 hmem
    rw [List.map_cons, takeItems, Option.bind_some, hitem]
    simp only [Option.join_some, Option.map_some, ih hkept hnodup.2]
    rfl

theorem perm_inOutputOrder {α : Type} {items : List α} (hlen : items.length = d.requests.length) :
    (d.inOutputOrder items).Perm items := by
  refine ((List.mergeSort_perm ..).map Prod.snd).trans ?_
  rw [List.map_snd_zip (by simp [hlen])]

/-- Taking what the table of a decoder names puts items in output order. -/
theorem takeItems_inOutputOrder {α : Type} {items : List α}
    (hlen : items.length = d.requests.length) (slot : Nat) :
    takeItems slot ((d.inOutputOrder (List.range d.requests.length)).map some) (items.map some) =
      .ok (d.inOutputOrder items) := by
  have hzip : items.zipIdx.length = d.requests.length := by rw [List.length_zipIdx, hlen]
  refine takeItems_eq_ok ?_ ?_ slot
  · have hplaces : d.inOutputOrder (List.range d.requests.length) =
        (d.inOutputOrder items.zipIdx).map Prod.snd := by
      rw [← inOutputOrder_map, List.zipIdx_map_snd, hlen, List.range_eq_range']
    have hitems : d.inOutputOrder items = (d.inOutputOrder items.zipIdx).map Prod.fst := by
      rw [← inOutputOrder_map, List.zipIdx_map_fst]
    rw [hplaces, hitems, List.forall₂_map_left_iff, List.forall₂_map_right_iff, List.forall₂_same]
    intro pair hpair
    have hmem := List.mem_zipIdx_iff_getElem?.1 ((perm_inOutputOrder hzip).mem_iff.1 hpair)
    rw [List.getElem?_map, hmem]
    rfl
  · exact (perm_inOutputOrder (by simp)).nodup_iff.2 List.nodup_range

/-! ## Checks -/

/-- What a reader gives is there to be read. -/
theorem consumeChecked_eq (d : Decoder) (s : Session) (message : Bytes) :
    d.consumeChecked s message = (d.consume s message).mapError .corrupt := by
  have hpulls : Pulls (d.dispatched s message) _ :=
    pulls_pullMessage d.options.messageSetItems message s.messageCount s.collectors
  obtain ⟨_, cs, hx, hy⟩ | ⟨e, cs, hx, hy⟩ := hpulls.ok_or_error
  · cases hp : d.options.onCorrupt with
    | fail =>
      rw [consumeChecked, hy, consume_fail hp, hx]
      rfl
    | skip =>
      rw [consumeChecked, hy, consume_skip hp, hx]
      rfl
  · cases hp : d.options.onCorrupt with
    | fail =>
      rw [consumeChecked, hy, consume_fail hp, hx, hp]
      rfl
    | skip =>
      rw [consumeChecked, hy, consume_skip hp, hx, hp]
      rfl

theorem foldlM_consumeChecked (d : Decoder) (s : Session) (messages : List Bytes) :
    messages.foldlM d.consumeChecked s = (messages.foldlM d.consume s).mapError .corrupt := by
  induction messages generalizing s with
  | nil => rfl
  | cons message messages ih =>
    rw [List.foldlM_cons, List.foldlM_cons, consumeChecked_eq]
    cases d.consume s message with
    | ok s' => exact ih s'
    | error e => rfl

/-- For a decoder that has been made, none of the checks fails. -/
theorem Valid.decodeChecked_eq (hd : d.Valid) (messages : List Bytes) :
    d.decodeChecked ((d.inOutputOrder (List.range d.requests.length)).map some) messages =
      d.decode messages := by
  have hcollectors : (d.requests.mapM fun r => ofSpecTyped r.spec.kind.valueType r.spec) =
      .ok (d.requests.map fun r => ofSpec r.spec) := by
    rw [mapM_eq_ok_iff, List.forall₂_map_right_iff, List.forall₂_same]
    exact fun r _ => if_pos rfl
  have hsorted : requireSorted (d.requests.map fun r => ofSpec r.spec) = .ok () := by
    refine if_pos (areSorted_of_pairwise ?_)
    rw [List.map_map]
    exact hd.ascending
  have hstart : (⟨(d.requests.map fun r => ofSpec r.spec).toArray, 0, 0⟩ : Session) = d.start := rfl
  rw [decodeChecked, hcollectors, decode]
  simp only [bind, Except.bind]
  rw [hsorted]
  dsimp only
  rw [hstart, foldlM_consumeChecked]
  cases hrun : messages.foldlM d.consume d.start with
  | error e => rfl
  | ok session =>
    have hsize : session.collectors.size = d.requests.length := by
      rw [hd.fits_start.foldlM_eq_ok hd hrun]
      simp [start]
    dsimp only [Except.mapError]
    rw [takeItems_inOutputOrder (by simp [hsize]), takeItems_inOutputOrder (by simp)]
    rfl

/-! ## Fields, numbers and columns -/

theorem numbers_of_decode (h : d.decode messages = .ok batch) :
    batch.numbers = d.inOutputOrder (d.requests.map (·.spec.number)) := by
  obtain ⟨session, -, rfl⟩ := exists_foldlM_of_decode h
  rfl

/-- The number and the column of a field stand at its slot. -/
theorem at_slot_of_decode (hd : ofFields fields options = .ok d) (h : d.decode messages = .ok batch)
    {i : Nat} {spec : FieldSpec} (hi : fields[i]? = some spec) :
    batch.numbers[spec.output?.getD i]? = some spec.number ∧
      batch.columns[spec.output?.getD i]? = some
        (((ofSpec spec).gather 0 (messages.map fun m =>
          d.worth m spec.number spec.kind)).toColumn options.ownership) := by
  rw [numbers_of_decode h, (gathered_of_decode hd h).2.2, ← inOutputOrder_map]
  exact ⟨getElem?_inOutputOrder_map hd hi (·.spec.number), getElem?_inOutputOrder_map hd hi _⟩

theorem length_numbers_of_decode (hd : ofFields fields options = .ok d)
    (h : d.decode messages = .ok batch) : batch.numbers.length = fields.length := by
  rw [numbers_of_decode h, length_inOutputOrder (List.length_map _), length_requests_of_ofFields hd]

theorem exists_corruption_of_decode {e : Error} (h : d.decode messages = .error e) :
    ∃ cause, e = .corrupt cause := by
  rw [decode] at h
  split at h
  · cases h
  · exact ⟨_, (Except.error.inj h).symm⟩

/-- A decoder is made for the fields that can be requested together and for no others. The field of
a slot stands at that slot, and so do its number and its column in every batch: the column has the
values that the messages are worth to the field. That every slot has its column, that the collectors
are sorted, that each is of the type of its field, and that readers are asked for what is there,
need not be checked: decoding fails at corrupt messages only. -/
theorem columns_at_their_slots (fields : List FieldSpec) (options : DecodeOptions) :
    ((∃ d, ofFields fields options = .ok d) ↔ Requestable fields) ∧
      ∀ d, ofFields fields options = .ok d →
        d.fields.length = fields.length ∧
        (∀ (slot : Nat) (spec : FieldSpec), d.fields[slot]? = some spec ↔
          ∃ (i : Nat) (given : FieldSpec), fields[i]? = some given ∧
            given.output?.getD i = slot ∧ spec = { given with output? := some slot }) ∧
        (∃ table, fillSlots (List.replicate fields.length none) 0 d.requests = .ok table ∧
          ∀ messages, d.decodeChecked table messages = d.decode messages) ∧
        (∀ messages e, d.decode messages = .error e → ∃ cause, e = .corrupt cause) ∧
        ∀ messages batch, d.decode messages = .ok batch →
          batch.numbers.length = fields.length ∧ batch.columns.length = fields.length ∧
          ∀ (i : Nat) (spec : FieldSpec), fields[i]? = some spec →
            batch.numbers[spec.output?.getD i]? = some spec.number ∧
            batch.columns[spec.output?.getD i]? = some
              (((ofSpec spec).gather 0 (messages.map fun m =>
                d.worth m spec.number spec.kind)).toColumn options.ownership) := by
  refine ⟨exists_ofFields_iff, fun d hd => ?_⟩
  have hvalid := valid_of_ofFields hd
  have hlen := length_requests_of_ofFields hd
  refine ⟨?_, fun slot spec => getElem?_fields_iff hd, ⟨_, ?_, hvalid.decodeChecked_eq⟩,
    fun messages e => exists_corruption_of_decode, fun messages batch h =>
      ⟨length_numbers_of_decode hd h, length_columns_of_decode hd h,
        fun i spec hi => at_slot_of_decode hd h hi⟩⟩
  · rw [Decoder.fields, length_inOutputOrder (List.length_map _), hlen]
  · rw [← hlen]
    exact hvalid.fillSlots_eq

/-- An explicit slot that is another field's place in the list. -/
example : ofFields [⟨2, .bool, false, none, none⟩, ⟨1, .int32, true, some 0, none⟩] {} =
    .error (.invalidArgument (.duplicateOutput 0)) := by cbv

end Decoder

end WireColumns
