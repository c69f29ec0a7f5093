import WireColumns.Proofs.Column.Acceptance
import WireColumns.Proofs.Ragged.Offsets

/-! # Decoded columns are ragged

A decoded column is a ragged one (`Column.IsRagged`): its values are those of the first message,
then those of the second, and so on, so the parents ascend (`Decoder.decode_ragged`). A message of a
batch that is decoded adds its values under its own index, or none if it is skipped
(`Decoder.worth`); the batch is what all its messages add (`Decoder.Fits.foldlM_eq_ok`). -/

namespace WireColumns

/-! ## Entries by message -/

variable {repeated : Bool} {first : Nat} {messages : List (List Value)}

theorem mem_entriesFrom {e : Value × Int} (h : e ∈ entriesFrom repeated first messages) :
    ∃ i values, messages[i]? = some values ∧ e.2 = ↑(first + i) ∧
      e.1 ∈ keptValues repeated values := by
  induction messages generalizing first with
  | nil => cases h
  | cons values messages ih =>
    rw [entriesFrom_cons, List.mem_append, List.mem_map] at h
    rcases h with ⟨v, hv, rfl⟩ | h
    · exact ⟨0, values, rfl, rfl, hv⟩
    · obtain ⟨i, values', hi, he, hv⟩ := ih h
      exact ⟨i + 1, values', hi, he.trans (congrArg Nat.cast (by omega)), hv⟩

/-- The entries of a message come behind those of the messages in front of it; a field that is not
repeated has no two of one message. -/
theorem pairwise_entriesFrom (repeated : Bool) (first : Nat) (messages : List (List Value)) :
    (entriesFrom repeated first messages).Pairwise fun e e' =>
      e.2 < e'.2 ∨ repeated = true ∧ e.2 = e'.2 := by
  induction messages generalizing first with
  | nil => exact .nil
  | cons values messages ih =>
    rw [entriesFrom_cons]
    refine List.pairwise_append.2 ⟨?_, ih _, fun e he e' he' => .inl ?_⟩
    · rw [List.pairwise_map]
      cases repeated with
      | true => exact List.pairwise_of_forall fun _ _ => .inr ⟨rfl, rfl⟩
      | false =>
        cases hlast : values.getLast? <;> simp [keptValues, hlast]
    · obtain ⟨v, -, rfl⟩ := List.mem_map.1 he
      obtain ⟨i, -, -, hparent, -⟩ := mem_entriesFrom he'
      dsimp only
      omega

/-! ## Decoded columns -/

namespace Collector

variable {spec : FieldSpec} {messages : List (List Value)} {ownership : Ownership}

theorem parents_gather (spec : FieldSpec) (messages : List (List Value)) (ownership : Ownership) :
    (((ofSpec spec).gather 0 messages).toColumn ownership).parents =
      (entriesFrom spec.repeated 0 messages).map Prod.snd := by
  simp [toColumn, gather, ofSpec]

/-- The parent of a value is a message that has a value. -/
theorem exists_of_mem_parents_gather {p : Int}
    (h : p ∈ (((ofSpec spec).gather 0 messages).toColumn ownership).parents) :
    ∃ (i : Nat) (values : List Value), messages[i]? = some values ∧ p = i ∧
      keptValues spec.repeated values ≠ [] := by
  rw [parents_gather, List.mem_map] at h
  obtain ⟨e, he, rfl⟩ := h
  obtain ⟨i, values, hi, hparent, hv⟩ := mem_entriesFrom he
  exact ⟨i, values, hi, hparent.trans (congrArg Nat.cast (Nat.zero_add i)), List.ne_nil_of_mem hv⟩

/-- What has been gathered from the start of a batch is ragged. -/
theorem isRagged_gather (spec : FieldSpec) (messages : List (List Value)) (ownership : Ownership) :
    (((ofSpec spec).gather 0 messages).toColumn ownership).IsRagged messages.length := by
  refine ⟨by simp [toColumn], ?_, fun p hp => ?_⟩
  · rw [parents_gather, List.pairwise_map]
    refine (pairwise_entriesFrom ..).imp fun h => ?_
    rcases h with h | ⟨-, h⟩ <;> omega
  · obtain ⟨i, values, hi, rfl, -⟩ := exists_of_mem_parents_gather hp
    have hlt := (List.getElem?_eq_some_iff.1 hi).1
    omega

theorem pairwise_parents_gather (h : spec.repeated = false) :
    (((ofSpec spec).gather 0 messages).toColumn ownership).parents.Pairwise (· < ·) := by
  rw [parents_gather, List.pairwise_map]
  refine (pairwise_entriesFrom ..).imp fun hlt => ?_
  exact hlt.resolve_right fun hrepeated => Bool.false_ne_true (h.symm.trans hrepeated.1)

end Collector

namespace Decoder

open Collector

variable {d : Decoder} {s s' : Session} {m : Bytes} {messages : List Bytes} {batch : Batch}

/-- The values that a message of a batch adds for a field. -/
def worth (d : Decoder) (m : Bytes) (number : UInt32) (kind : FieldKind) : List Value :=
  if d.rejects m then []
  else (Walk.ofMessage m).untilEndGroup.valuesFor d.options.messageSetItems number kind

theorem worth_of_rejects (h : d.rejects m = true) (number : UInt32) (kind : FieldKind) :
    d.worth m number kind = [] := if_pos h

theorem accepts_of_rejects_eq_false (hd : d.Valid) (h : d.rejects m = false) : d.Accepts m := by
  rw [rejects_eq] at h
  cases hdispatched : d.dispatched d.start m with
  | ok _ cs => exact accepts_of_dispatched hd hd.fits_start hdispatched
  | error e cs =>
    rw [hdispatched] at h
    cases h

/-- A message that is decoded adds what it is worth, and is counted if it is skipped. -/
theorem Fits.consume_eq_ok (hs : d.Fits s) (hd : d.Valid) (h : d.consume s m = .ok s') :
    s' = ⟨Collector.addAll (d.worth m) s.messageCount s.collectors, s.messageCount + 1,
      s.corruptCount + if d.rejects m then 1 else 0⟩ := by
  cases hr : d.rejects m with
  | false =>
    have hworth : d.worth m = fun n k =>
        (Walk.ofMessage m).untilEndGroup.valuesFor d.options.messageSetItems n k := by
      funext n k
      rw [worth, hr]
      rfl
    rw [(accepts_of_rejects_eq_false hd hr).adds hd s hs, ← hworth] at h
    exact (Except.ok.inj h).symm
  | true =>
    have hworth : d.worth m = fun _ _ => [] := funext₂ (worth_of_rejects hr)
    rw [hworth, addAll_nil]
    cases hp : d.options.onCorrupt with
    | skip =>
      rw [consume_of_rejected hd hs hp hr] at h
      exact (Except.ok.inj h).symm
    | fail => cases hr.symm.trans (hs.rejects_eq_false hd hp h)

/-- A batch that is decoded adds what its messages are worth. -/
theorem Fits.foldlM_eq_ok (hs : d.Fits s) (hd : d.Valid)
    (h : messages.foldlM d.consume s = .ok s') :
    s' = ⟨s.collectors.map fun c =>
        c.gather s.messageCount (messages.map fun m => d.worth m c.number c.kind),
      s.messageCount + messages.length, s.corruptCount + messages.countP d.rejects⟩ := by
  induction messages generalizing s with
  | nil =>
    cases h
    simp only [List.map_nil, map_gather_nil]
    rfl
  | cons m messages ih =>
    obtain ⟨s₁, hstep, hrest⟩ := of_foldlM_cons h
    have hs₁ := hs.consume hd hstep
    obtain rfl := hs.consume_eq_ok hd hstep
    rw [ih hs₁ hrest]
    dsimp only
    rw [hs.map_gather_addAll (d.worth m) fun n k => messages.map fun m => d.worth m n k,
      List.length_cons, List.countP_cons, Nat.add_right_comm, Nat.add_assoc, Nat.add_assoc,
      Nat.add_comm (List.countP ..)]
    rfl

section

variable {fields : List FieldSpec} {options : DecodeOptions} (hd : ofFields fields options = .ok d)
include hd

/-- The columns of a batch: each is what its request has gathered. -/
theorem gathered_of_decode (h : d.decode messages = .ok batch) :
    batch.messageCount = messages.length ∧ batch.corruptCount = messages.countP d.rejects ∧
      batch.columns = (d.inOutputOrder d.requests).map fun r =>
        ((ofSpec r.spec).gather 0 (messages.map fun m =>
          d.worth m r.spec.number r.spec.kind)).toColumn options.ownership := by
  obtain ⟨s, hrun, rfl⟩ := exists_foldlM_of_decode h
  have hvalid := valid_of_ofFields hd
  obtain rfl := options_of_ofFields hd
  rw [hvalid.fits_start.foldlM_eq_ok hvalid hrun]
  refine ⟨Nat.zero_add _, Nat.zero_add _, ?_⟩
  rw [← inOutputOrder_map]
  simp only [finish, start, Array.toList_map, List.map_map]
  rfl

theorem isRagged_of_decode (h : d.decode messages = .ok batch) {c : Column}
    (hc : c ∈ batch.columns) : c.IsRagged batch.messageCount := by
  obtain ⟨hcount, -, hcolumns⟩ := gathered_of_decode hd h
  rw [hcolumns, List.mem_map] at hc
  obtain ⟨r, -, rfl⟩ := hc
  have hragged := isRagged_gather r.spec
    (messages.map fun m => d.worth m r.spec.number r.spec.kind) options.ownership
  rwa [List.length_map, ← hcount] at hragged

theorem length_columns_of_decode (h : d.decode messages = .ok batch) :
    batch.columns.length = fields.length := by
  rw [(gathered_of_decode hd h).2.2, List.length_map, length_inOutputOrder rfl,
    length_requests_of_ofFields hd]

/-- The columns of a batch that is decoded are ragged ones: each is that of a requested field, has
as many parents as values, and its parents are messages of the batch, in ascending order. The
parents of a singular field ascend strictly, the numbers of values under the messages make up the
whole column, and no message that is skipped is a parent. -/
theorem decode_ragged (h : d.decode messages = .ok batch) :
    batch.messageCount = messages.length ∧ batch.corruptCount = messages.countP d.rejects ∧
      batch.columns.length = fields.length ∧
      ∀ (slot : Nat) (c : Column), batch.columns[slot]? = some c →
        ∃ (i : Nat) (spec : FieldSpec), fields[i]? = some spec ∧ spec.output?.getD i = slot ∧
          c.parents.length = c.values.length ∧ c.parents.Pairwise (· ≤ ·) ∧
          (∀ p ∈ c.parents, 0 ≤ p ∧ p < batch.messageCount) ∧
          (spec.repeated = false → c.parents.Pairwise (· < ·)) ∧
          (c.valueCounts batch.messageCount).toList.sum = c.values.length ∧
          ∀ (j : Nat) (m : Bytes), messages[j]? = some m → d.rejects m = true →
            (j : Int) ∉ c.parents := by
  obtain ⟨hcount, hcorrupt, hcolumns⟩ := gathered_of_decode hd h
  refine ⟨hcount, hcorrupt, length_columns_of_decode hd h, fun slot c hc => ?_⟩
  have hragged := isRagged_of_decode hd h (List.mem_of_getElem? hc)
  rw [hcolumns, List.getElem?_map, Option.map_eq_some_iff] at hc
  obtain ⟨r, hr, rfl⟩ := hc
  obtain ⟨hmem, rfl⟩ := mem_of_getElem?_inOutputOrder (valid_of_ofFields hd) hr
  obtain ⟨i, hi, hslot⟩ := exists_field_of_request hd hmem
  refine ⟨i, r.spec, hi, hslot, hragged.length_eq, hragged.ascending, hragged.in_range,
    pairwise_parents_gather, hragged.sum_valueCounts, fun j m hj hrejects hmem => ?_⟩
  -- the values of a rejected message are none, and no parent is a message without values
  obtain ⟨j', values, hj', heq, hne⟩ := exists_of_mem_parents_gather hmem
  obtain rfl := Int.ofNat.inj heq
  rw [List.getElem?_map, hj, Option.map_some, worth_of_rejects hrejects] at hj'
  obtain rfl := Option.some.inj hj'
  exact hne (by cases r.spec.repeated <;> rfl)

end

/-- A repeated field in three messages: two values, a value in front of a truncated one, and one
value; the second message is skipped. -/
theorem decode_ragged_skip :
    ∃ d batch c, ofFields [⟨1, .int32, true, none, none⟩] { onCorrupt := .skip } = .ok d ∧
      d.decode [[8, 5, 8, 6], [8, 7, 8, 255], [8, 9]] = .ok batch ∧
      batch.columns[0]? = some c ∧ c.parents = [0, 0, 2] ∧ c.parents.Pairwise (· ≤ ·) ∧
      (c.valueCounts batch.messageCount).toList.sum = c.values.length ∧
      ((1 : Nat) : Int) ∉ c.parents := by
  have hfields : ofFields [⟨1, .int32, true, none, none⟩] { onCorrupt := .skip } =
      .ok ⟨[⟨⟨1, .int32, true, none, none⟩, 0⟩], { onCorrupt := .skip }⟩ := by cbv
  have hbatch : decode ⟨[⟨⟨1, .int32, true, none, none⟩, 0⟩], { onCorrupt := .skip }⟩
      [[8, 5, 8, 6], [8, 7, 8, 255], [8, 9]] =
      .ok ⟨[1], [⟨.int32, .borrowed, [.int32 5, .int32 6, .int32 9], [0, 0, 2]⟩], 3, 1⟩ := by cbv
  obtain ⟨-, -, -, hcolumn⟩ := decode_ragged hfields hbatch
  obtain ⟨i, spec, -, -, -, hascending, -, -, hsum, hskipped⟩ := hcolumn 0 _ rfl
  exact ⟨_, _, _, hfields, hbatch, rfl, rfl, hascending, hsum, hskipped 1 _ rfl (by cbv)⟩

end Decoder

end WireColumns
