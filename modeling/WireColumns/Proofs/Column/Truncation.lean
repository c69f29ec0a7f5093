import WireColumns.Proofs.Column.Acceptance
import WireColumns.Proofs.Wire.Framing

/-! # Messages that are cut off

A decoder that does not skip corrupt messages notices every cut that does not fall between two
occurrences (`Decoder.decode_cut_off`): within an occurrence the walk does not end properly
(`Walk.ofMessage_cut_off`), and then no message is accepted. Between two occurrences what is left is
a message of the occurrences in front of the cut, and their values are what it gives. -/

namespace WireColumns

namespace Decoder

open Collector

variable {d : Decoder} {m p : Bytes} {batch : Batch}

/-! ## One message -/

theorem decode_ne_ok {messages : List Bytes} (h : ∀ batch, d.decode messages ≠ .ok batch) :
    ∃ cause, d.decode messages = .error (.corrupt cause) := by
  unfold decode at h ⊢
  cases hrun : messages.foldlM d.consume d.start with
  | ok s =>
    rw [hrun] at h
    exact absurd rfl (h _)
  | error e => exact ⟨e, rfl⟩

theorem accepted_of_decode (hd : d.Valid) (hp : d.options.onCorrupt = .fail)
    (h : d.decode [m] = .ok batch) : d.Accepts m :=
  accepts_of_decode hd hp h m (List.mem_singleton_self m)

theorem toColumn_gather_repeated {spec : FieldSpec} (h : spec.repeated = true)
    (values : List Value) (ownership : Ownership) :
    ((ofSpec spec).gather 0 [values]).toColumn ownership =
      ⟨spec.kind.valueType, ownership, values, values.map fun _ => 0⟩ := by
  rw [toColumn_gather_singleton, h]
  rfl

/-- The column of a repeated field of a single message. -/
theorem column_of_adds {fields : List FieldSpec} {options : DecodeOptions}
    (hd : ofFields fields options = .ok d) {values : UInt32 → FieldKind → List Value}
    (hadds : d.Adds m values) (hm : d.decode [m] = .ok batch) {i : Nat} {spec : FieldSpec}
    (hspec : fields[i]? = some spec) (hrep : spec.repeated = true) :
    batch.columns[spec.output?.getD i]? = some ⟨spec.kind.valueType, options.ownership,
      values spec.number spec.kind, (values spec.number spec.kind).map fun _ => 0⟩ := by
  obtain ⟨batch', hbatch, hcolumns⟩ := decode_singleton hd hadds
  obtain rfl : batch = batch' := Except.ok.inj (hm.symm.trans hbatch)
  rw [hcolumns i spec hspec]
  exact congrArg some (toColumn_gather_repeated hrep ..)

/-! ## Prefixes -/

section

variable (hd : d.Valid) (hp : d.options.onCorrupt = .fail) (hm : d.decode [m] = .ok batch)

include hd hp hm

/-- An accepted message is made up of its occurrences. -/
theorem tiles_of_decode :
    (∀ f ∈ (Walk.ofMessage m).fields, f.Framed) ∧
      m = (Walk.ofMessage m).fields.flatMap Field.bytes :=
  Walk.tiles_of_complete (accepted_of_decode hd hp hm).complete

theorem adds_whole :
    d.Adds m fun n k => (Walk.ofMessage m).untilEndGroup.fields.flatMap
      (Field.valuesFor d.options.messageSetItems n k) :=
  (accepted_of_decode hd hp hm).adds hd

/-- The first occurrences of an accepted message are a message that is accepted, too. -/
theorem adds_take {j : Nat} (hj : j < (Walk.ofMessage m).fields.length) :
    d.Adds (((Walk.ofMessage m).fields.take j).flatMap Field.bytes) fun n k =>
      ((Walk.ofMessage m).fields.take j).flatMap
        (Field.valuesFor d.options.messageSetItems n k) := by
  obtain ⟨hcomplete, haccepted⟩ := accepted_of_decode hd hp hm
  obtain ⟨-, hplain, htake⟩ := Walk.of_untilEndGroup_complete hcomplete
  have hmem : ∀ f ∈ (Walk.ofMessage m).fields.take j,
      f ∈ (Walk.ofMessage m).untilEndGroup.fields := by
    rw [htake j hj]
    exact fun f hf => List.mem_of_mem_take hf
  refine adds_of_accepted hd ?_ fun f hf => haccepted f (hmem f hf)
  rw [Walk.ofMessage_framed fun f hf => (tiles_of_decode hd hp hm).1 f (List.mem_of_mem_take hf)]
  exact Walk.untilEndGroup_eq_self (fun f hf => hplain f (hmem f hf)) _

/-- What is left of an accepted message is some of its occurrences or no message. -/
theorem cut_off_cases (hpart : p <+: m) (hne : p ≠ m) :
    (∃ j < (Walk.ofMessage m).fields.length,
        p = ((Walk.ofMessage m).fields.take j).flatMap Field.bytes) ∨
      ∀ batch', d.decode [p] ≠ .ok batch' := by
  obtain ⟨hframed, htiles⟩ := tiles_of_decode hd hp hm
  obtain ⟨j, hj, ending, hwalk, hending⟩ :=
    Walk.ofMessage_cut_off hframed (htiles ▸ hpart) (htiles ▸ hne)
  by_cases hcomplete : ending = .complete
  · exact .inl ⟨j, hj, hending.1 hcomplete⟩
  · refine .inr fun batch' hp' => hcomplete ?_
    have haccepted := Walk.of_untilEndGroup_complete (accepted_of_decode hd hp hp').1
    rw [hwalk] at haccepted
    exact haccepted.1

end

/-- Which strict prefixes of an accepted message are accepted, and what they give. -/
theorem decode_cut_off {fields : List FieldSpec} {options : DecodeOptions}
    (hd : ofFields fields options = .ok d) (hp : options.onCorrupt = .fail)
    (hm : d.decode [m] = .ok batch) :
    m = (Walk.ofMessage m).fields.flatMap Field.bytes ∧
    ∀ p, p <+: m → p ≠ m →
      ((∃ batch', d.decode [p] = .ok batch') ↔
        ∃ j, p = ((Walk.ofMessage m).fields.take j).flatMap Field.bytes) ∧
      (∀ j batch', p = ((Walk.ofMessage m).fields.take j).flatMap Field.bytes →
        d.decode [p] = .ok batch' →
        ∀ (i : Nat) (spec : FieldSpec), fields[i]? = some spec → spec.repeated = true →
          ∃ column column', batch.columns[spec.output?.getD i]? = some column ∧
            batch'.columns[spec.output?.getD i]? = some column' ∧
            column'.values = ((Walk.ofMessage m).fields.take j).flatMap
              (Field.valuesFor options.messageSetItems spec.number spec.kind) ∧
            column'.values <+: column.values ∧ column'.parents <+: column.parents) ∧
      ((¬ ∃ j, p = ((Walk.ofMessage m).fields.take j).flatMap Field.bytes) →
        ∃ cause, d.decode [p] = .error (.corrupt cause)) := by
  have hvalid := valid_of_ofFields hd
  obtain rfl := options_of_ofFields hd
  obtain ⟨hframed, htiles⟩ := tiles_of_decode hvalid hp hm
  have hlt : ∀ j, ((Walk.ofMessage m).fields.take j).flatMap Field.bytes ≠ m →
      j < (Walk.ofMessage m).fields.length := by
    intro j hj
    by_contra hle
    rw [List.take_of_length_le (Nat.not_lt.1 hle)] at hj
    exact hj htiles.symm
  have haccepted : ∀ j, ((Walk.ofMessage m).fields.take j).flatMap Field.bytes ≠ m →
      ∃ batch', d.decode [((Walk.ofMessage m).fields.take j).flatMap Field.bytes] = .ok batch' := by
    intro j hj
    obtain ⟨batch', hbatch, -⟩ := decode_singleton hd (adds_take hvalid hp hm (hlt j hj))
    exact ⟨batch', hbatch⟩
  refine ⟨htiles, fun p hpart hne => ⟨⟨?_, ?_⟩, ?_, ?_⟩⟩
  · rintro ⟨batch', hbatch'⟩
    obtain ⟨j, -, hcut⟩ | hnone := cut_off_cases hvalid hp hm hpart hne
    · exact ⟨j, hcut⟩
    · exact absurd hbatch' (hnone batch')
  · rintro ⟨j, rfl⟩
    exact haccepted j hne
  · rintro j batch' rfl hbatch' i spec hspec hrep
    obtain ⟨-, -, htake⟩ := Walk.of_untilEndGroup_complete (accepted_of_decode hvalid hp hm).1
    have hvalues : ((Walk.ofMessage m).fields.take j).flatMap
          (Field.valuesFor d.options.messageSetItems spec.number spec.kind) <+:
        (Walk.ofMessage m).untilEndGroup.fields.flatMap
          (Field.valuesFor d.options.messageSetItems spec.number spec.kind) := by
      rw [htake j (hlt j hne)]
      exact (List.take_prefix ..).flatMap _
    refine ⟨_, _, column_of_adds hd (adds_whole hvalid hp hm) hm hspec hrep,
      column_of_adds hd (adds_take hvalid hp hm (hlt j hne)) hbatch' hspec hrep, rfl, hvalues, ?_⟩
    exact hvalues.map _
  · intro hcut
    apply decode_ne_ok
    obtain ⟨j, -, hj⟩ | hnone := cut_off_cases hvalid hp hm hpart hne
    · exact absurd ⟨j, hj⟩ hcut
    · exact hnone

/-- The cut falls behind the first of two occurrences, or within the second. -/
theorem decode_cut_off_string :
    ofFields [⟨1, .int32, true, none, none⟩] {} =
        .ok ⟨[⟨⟨1, .int32, true, none, none⟩, 0⟩], {}⟩ ∧
      (∃ batch, decode ⟨[⟨⟨1, .int32, true, none, none⟩, 0⟩], {}⟩ [[8, 5]] = .ok batch) ∧
      ∃ cause, decode ⟨[⟨⟨1, .int32, true, none, none⟩, 0⟩], {}⟩ [[8, 5, 18, 2, 97]] =
        .error (.corrupt cause) := by
  have hfields : ofFields [⟨1, .int32, true, none, none⟩] {} =
      .ok ⟨[⟨⟨1, .int32, true, none, none⟩, 0⟩], {}⟩ := by cbv
  have hmessage : decode ⟨[⟨⟨1, .int32, true, none, none⟩, 0⟩], {}⟩ [[8, 5, 18, 2, 97, 98]] =
      .ok ⟨[1], [⟨.int32, .borrowed, [.int32 5], [0]⟩], 1, 0⟩ := by cbv
  have hwalk : (Walk.ofMessage [8, 5, 18, 2, 97, 98]).fields =
      [⟨[8], ⟨1, .varint⟩, [5]⟩, ⟨[18], ⟨2, .lengthDelimited⟩, [2, 97, 98]⟩] := by cbv
  obtain ⟨-, hcut⟩ := decode_cut_off hfields rfl hmessage
  rw [hwalk] at hcut
  obtain ⟨hbetween, -, -⟩ := hcut [8, 5] (by decide) (by decide)
  obtain ⟨-, -, hwithin⟩ := hcut [8, 5, 18, 2, 97] (by decide) (by decide)
  refine ⟨hfields, hbetween.2 ⟨1, rfl⟩, hwithin ?_⟩
  rintro ⟨j, hj⟩
  rcases j with _ | _ | j <;> simp [Field.bytes] at hj

end Decoder

end WireColumns
