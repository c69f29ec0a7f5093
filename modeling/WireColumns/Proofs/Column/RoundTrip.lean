import WireColumns.Proofs.Column.Accumulation
import WireColumns.Proofs.Wire.Decoding

/-! # Decoding what has been written

The columns of messages that have been written occurrence by occurrence hold the values they were
written with (`Decoder.decode_written_messages`): under each message's index come the values of its
occurrences of the field, all of them or the last one. An occurrence contributes its value to its
field (`Occurrence.valuesFor_field`), hence a message adds those of all its occurrences
(`Collector.lookupMessage_encode`), and a batch those of all its messages. -/

namespace WireColumns

namespace Occurrence

/-- The field with the given number occurs with the given kind only. -/
def OnlyKind (number : UInt32) (kind : FieldKind) (occurrences : List Occurrence) : Prop :=
  ∀ o ∈ occurrences, o.number = number → o.kind = kind

variable [Encoder]

/-- The values of a field in a message, in order. -/
def valuesOf (number : UInt32) (occurrences : List Occurrence) : List Value :=
  (occurrences.filter (·.number == number)).map value

/-- The entries of a field's column, where the first message has the given index. -/
def entriesOf (number : UInt32) (repeated : Bool) (first : Nat)
    (messages : List (List Occurrence)) : List (Value × Int) :=
  (messages.zipIdx first).flatMap fun (occurrences, index) =>
    (keptValues repeated (valuesOf number occurrences)).map (·, (index : Int))

theorem entriesOf_eq (number : UInt32) (repeated : Bool) (first : Nat)
    (messages : List (List Occurrence)) :
    entriesOf number repeated first messages =
      entriesFrom repeated first (messages.map (valuesOf number)) := by
  rw [entriesOf, entriesFrom, List.zipIdx_map, List.flatMap_map]
  rfl

/-! ## What an occurrence contributes -/

variable [LawfulEncoder]

theorem valuesFor_field {o : Occurrence} (ho : o.WellFormed) {number : UInt32} {kind : FieldKind}
    (hkind : OnlyKind number kind [o]) :
    o.field.valuesFor false number kind = valuesOf number [o] := by
  have hdelivery : o.field.valuesFor false number kind =
      Delivery.valuesFor ⟨o.number, o.field.tag.wire, o.field.payload⟩ number kind := rfl
  rw [hdelivery, Delivery.valuesFor]
  split
  next hn =>
    rw [← hkind o List.mem_cons_self hn, ho.interpret_field, valuesOf,
      List.filter_cons_of_pos (by simpa using hn)]
    rfl
  next hn =>
    rw [valuesOf, List.filter_cons_of_neg (by simpa using hn)]
    rfl

theorem flatMap_valuesFor_field {occurrences : List Occurrence}
    (ho : ∀ o ∈ occurrences, o.WellFormed) {number : UInt32} {kind : FieldKind}
    (hkind : OnlyKind number kind occurrences) :
    (occurrences.map field).flatMap (Field.valuesFor false number kind) =
      valuesOf number occurrences := by
  induction occurrences with
  | nil => rfl
  | cons o rest ih =>
    rw [List.forall_mem_cons] at ho
    rw [OnlyKind, List.forall_mem_cons] at hkind
    rw [List.map_cons, List.flatMap_cons, ih ho.2 hkind.2,
      valuesFor_field ho.1 (List.forall_mem_singleton.2 hkind.1), valuesOf, valuesOf,
      ← List.map_append, ← List.filter_append]
    rfl

theorem refusal?_field {cs : Array Collector} {o : Occurrence} (ho : o.WellFormed)
    (hkind : ∀ c ∈ cs, OnlyKind c.number c.kind [o]) : o.field.refusal? false cs = none := by
  have hdelivery : o.field.refusal? false cs =
      Collector.refusal? ⟨o.number, o.field.tag.wire, o.field.payload⟩ cs := rfl
  rw [hdelivery, Collector.refusal?]
  cases hfind : cs.toList.find? (·.number == o.number) with
  | none => rfl
  | some c =>
    have hc : c ∈ cs := Array.mem_toList_iff.1 (List.mem_of_find?_eq_some hfind)
    have hn : c.number = o.number := by simpa using List.find?_some hfind
    rw [Option.bind_some, ← hkind c hc o List.mem_cons_self hn.symm, ho.interpret_field]

end Occurrence

open Occurrence

namespace Collector

variable [Encoder] {cs : Array Collector}

/-- A message adds to every collector the values of its occurrences of the collector's field. -/
theorem lookupMessage_encode [LawfulEncoder] (hnodup : (numbers cs).Nodup)
    {occurrences : List Occurrence} (ho : ∀ o ∈ occurrences, o.WellFormed)
    (hkind : ∀ c ∈ cs, OnlyKind c.number c.kind occurrences) (index : Int) :
    lookupMessage false (encode occurrences) index cs =
      .ok () (addAll (fun n _ => valuesOf n occurrences) index cs) := by
  have hend : ∀ f ∈ occurrences.map field, f.tag.wire ≠ .endGroup := by
    intro f hf
    obtain ⟨o, -, rfl⟩ := List.mem_map.1 hf
    exact wire_ne_endGroup o
  have haccepted : ∀ f ∈ occurrences.map field, f.refusal? false cs = none := by
    intro f hf
    obtain ⟨o, hmem, rfl⟩ := List.mem_map.1 hf
    exact refusal?_field (ho o hmem) fun c hc o' ho' =>
      hkind c hc o' (List.mem_singleton.1 ho' ▸ hmem)
  rw [lookupMessage, Walk.ofMessage_encode ho, Walk.untilEndGroup_eq_self hend,
    visit_accepted hnodup haccepted]
  exact congrArg (EStateM.Result.ok ())
    (addAll_congr (fun c hc => flatMap_valuesFor_field ho (hkind c hc)) index)

/-- The collector after messages of which the first has the given index. -/
def extend (first : Nat) (messages : List (List Occurrence)) (c : Collector) : Collector :=
  { c with entries := c.entries ++ (entriesOf c.number c.repeated first messages).toArray }

theorem extend_eq_gather (first : Nat) (messages : List (List Occurrence)) (c : Collector) :
    c.extend first messages = c.gather first (messages.map (valuesOf c.number)) := by
  rw [extend, gather, entriesOf_eq]

end Collector

namespace Decoder

open Collector

variable {d : Decoder}

section

variable [Encoder] [LawfulEncoder] {s : Session}

theorem consume_encode (hd : d.Valid) (hs : d.Fits s) (hp : d.options.onCorrupt = .fail)
    (hi : d.options.messageSetItems = false) {occurrences : List Occurrence}
    (ho : ∀ o ∈ occurrences, o.WellFormed)
    (hkind : ∀ c ∈ s.collectors, OnlyKind c.number c.kind occurrences) :
    d.consume s (encode occurrences) =
      .ok ⟨addAll (fun n _ => valuesOf n occurrences) s.messageCount s.collectors,
        s.messageCount + 1, s.corruptCount⟩ := by
  rw [consume_fail hp, hs.dispatched_eq hd, hi, lookupMessage_encode hs.same.nodup ho hkind]

theorem foldlM_encode (hd : d.Valid) (hs : d.Fits s) (hp : d.options.onCorrupt = .fail)
    (hi : d.options.messageSetItems = false) {messages : List (List Occurrence)}
    (ho : ∀ occurrences ∈ messages, ∀ o ∈ occurrences, o.WellFormed)
    (hkind : ∀ c ∈ s.collectors, ∀ occurrences ∈ messages,
      OnlyKind c.number c.kind occurrences) :
    (messages.map encode).foldlM d.consume s =
      .ok ⟨s.collectors.map (extend s.messageCount messages),
        s.messageCount + messages.length, s.corruptCount⟩ := by
  have hadds : ∀ occurrences ∈ messages,
      d.Adds (encode occurrences) fun n _ => valuesOf n occurrences := by
    intro occurrences hmem s' hs'
    refine consume_encode hd hs' hp hi (ho occurrences hmem) fun c hc => ?_
    obtain ⟨c', hc', hnumber', hkind'⟩ :=
      exists_of_clearAll_eq (hs'.same.clearAll_eq.trans hs.same.clearAll_eq.symm) hc
    rw [← hnumber', ← hkind']
    exact hkind c' hc' occurrences hmem
  have hextend : s.collectors.map (extend s.messageCount messages) =
      s.collectors.map fun c => c.gather s.messageCount (messages.map (valuesOf c.number)) :=
    Array.map_congr_left fun c _ => extend_eq_gather s.messageCount messages c
  rw [hextend]
  exact foldlM_adds hs hadds

end

/-- Messages written occurrence by occurrence are decoded to the values they were written with,
whatever lawful encoder writes the numbers and keys. The column of a requested field holds, message
by message, the values of the field's occurrences with the index of the message; of a singular field
just the last in each message. -/
theorem decode_written_messages [Encoder] [LawfulEncoder] {fields : List FieldSpec}
    {options : DecodeOptions} (hd : ofFields fields options = .ok d)
    (hp : options.onCorrupt = .fail) (hi : options.messageSetItems = false)
    (messages : List (List Occurrence))
    (ho : ∀ occurrences ∈ messages, ∀ o ∈ occurrences, o.WellFormed)
    (hkind : ∀ spec ∈ fields, ∀ occurrences ∈ messages,
      OnlyKind spec.number spec.kind occurrences) :
    ∃ batch, d.decode (messages.map encode) = .ok batch ∧
      batch.messageCount = messages.length ∧ batch.corruptCount = 0 ∧
      batch.columns.length = fields.length ∧
      ∀ (i : Nat) (spec : FieldSpec), fields[i]? = some spec →
        batch.numbers[spec.output?.getD i]? = some spec.number ∧
        batch.columns[spec.output?.getD i]? = some
          { type := spec.kind.valueType
            ownership := options.ownership
            values := (entriesOf spec.number spec.repeated 0 messages).map Prod.fst
            parents := (entriesOf spec.number spec.repeated 0 messages).map Prod.snd } := by
  have hvalid := valid_of_ofFields hd
  have hoptions := options_of_ofFields hd
  have hstart : ∀ c ∈ d.start.collectors, ∀ occurrences ∈ messages,
      OnlyKind c.number c.kind occurrences := by
    intro c hc
    obtain ⟨r, hr, rfl⟩ : ∃ r ∈ d.requests, ofSpec r.spec = c := by simpa [start] using hc
    exact hkind r.spec (spec_mem_of_ofFields hd hr)
  have hrun := foldlM_encode hvalid hvalid.fits_start (hoptions ▸ hp) (hoptions ▸ hi) ho hstart
  refine ⟨_, by rw [decode, hrun], Nat.zero_add _, rfl, ?_, fun i spec hspec => ?_⟩
  · rw [finish, length_inOutputOrder, length_requests_of_ofFields hd]
    simp [start]
  · have hcolumns : (d.start.collectors.map (extend 0 messages)).toList.map
        (fun c => c.toColumn d.options.ownership) = d.requests.map fun r =>
          ((ofSpec r.spec).extend 0 messages).toColumn options.ownership := by
      rw [hoptions]
      simp [start]
    refine ⟨getElem?_inOutputOrder_map hd hspec _, ?_⟩
    change (d.inOutputOrder ((d.start.collectors.map (extend 0 messages)).toList.map
      fun c => c.toColumn d.options.ownership))[_]? = _
    rw [hcolumns, getElem?_inOutputOrder_map hd hspec]
    simp [toColumn, extend, ofSpec]

/-- A message with a group between two occurrences of a repeated field. -/
theorem decode_written_messages_group :
    @LawfulEncoder .shortest ∧
      ofFields [⟨2, .group, false, none, none⟩, ⟨1, .int32, true, none, none⟩] {} =
        .ok ⟨[⟨⟨1, .int32, true, none, none⟩, 1⟩, ⟨⟨2, .group, false, none, none⟩, 0⟩], {}⟩ ∧
      ∃ batch,
        decode ⟨[⟨⟨1, .int32, true, none, none⟩, 1⟩, ⟨⟨2, .group, false, none, none⟩, 0⟩], {}⟩
          [encode [.scalar 1 (.int32 (-1)), .group 2 [.scalar 7 (.bool true)],
            .scalar 1 (.int32 5)]] = .ok batch ∧
        batch.columns[0]? = some ⟨.bytes, .borrowed, [.bytes [56, 1]], [0]⟩ ∧
        batch.columns[1]? = some ⟨.int32, .borrowed, [.int32 (-1), .int32 5], [0, 0]⟩ := by
  have hfields : ofFields [⟨2, .group, false, none, none⟩, ⟨1, .int32, true, none, none⟩] {} =
      .ok ⟨[⟨⟨1, .int32, true, none, none⟩, 1⟩, ⟨⟨2, .group, false, none, none⟩, 0⟩], {}⟩ := by
    cbv
  have hone : (scalar 1 (.int32 (-1))).WellFormed := .scalar (by decide) (by decide) trivial
  have hfive : (scalar 1 (.int32 5)).WellFormed := .scalar (by decide) (by decide) trivial
  have hgroup : (group 2 [.scalar 7 (.bool true)]).WellFormed :=
    .group (by decide) (by decide) <| List.forall_mem_singleton.2 <|
      .scalar (by decide) (by decide) trivial
  have hwritten : ∀ occurrences ∈ [[scalar 1 (.int32 (-1)), .group 2 [.scalar 7 (.bool true)],
      .scalar 1 (.int32 5)]], ∀ o ∈ occurrences, o.WellFormed := by
    simp only [List.forall_mem_cons, List.not_mem_nil, false_imp_iff, implies_true, and_true]
    exact ⟨hone, hgroup, hfive⟩
  obtain ⟨batch, hbatch, -, -, -, hcolumns⟩ :=
    decode_written_messages hfields rfl rfl _ hwritten
      (by simp [OnlyKind, Occurrence.number, Occurrence.kind, Scalar.kind])
  refine ⟨Encoder.lawful_shortest, hfields, batch, hbatch, (hcolumns 0 _ rfl).2.trans ?_,
    (hcolumns 1 _ rfl).2.trans ?_⟩
  · cbv
  · cbv

end Decoder

end WireColumns
