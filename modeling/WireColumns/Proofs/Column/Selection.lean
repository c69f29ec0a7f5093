import WireColumns.Proofs.Column.Acceptance

/-! # Requested fields do not influence one another

A decoder of fewer fields decodes every batch that a decoder of more fields decodes, and the fields
that both request have the same columns (`Decoder.decode_fewer_fields`). Fewer collectors refuse
fewer occurrences (`Collector.fieldRefusal?_of_fewer`), and what an occurrence is worth to a field
does not depend on the other fields. -/

namespace WireColumns

/-- The same field, of which the same values are kept. -/
structure FieldSpec.SameField (spec spec' : FieldSpec) : Prop where
  number_eq : spec.number = spec'.number
  kind_eq : spec.kind = spec'.kind
  repeated_eq : spec.repeated = spec'.repeated

theorem FieldSpec.SameField.ofSpec_eq {spec spec' : FieldSpec} (h : spec.SameField spec') :
    Collector.ofSpec spec = Collector.ofSpec spec' := by
  rw [Collector.ofSpec, Collector.ofSpec, h.number_eq, h.kind_eq, h.repeated_eq]

namespace Collector

section

variable {cs cs' : Array Collector} (hcs : (numbers cs).Nodup) (hcs' : (numbers cs').Nodup)
  (hsub : ∀ c' ∈ cs', ∃ c ∈ cs, c.number = c'.number ∧ c.kind = c'.kind)
include hcs hcs' hsub

theorem refusal?_of_fewer {t : Delivery} (h : refusal? t cs = none) : refusal? t cs' = none := by
  rw [refusal?_eq_none_iff hcs] at h
  rw [refusal?_eq_none_iff hcs']
  intro c' hc' hn
  obtain ⟨c, hc, hnumber, hkind⟩ := hsub c' hc'
  rw [← hkind]
  exact h c hc (hnumber.trans hn)

theorem fieldRefusal?_of_fewer {messageSetItems : Bool} {f : Field}
    (h : f.refusal? messageSetItems cs = none) : f.refusal? messageSetItems cs' = none := by
  unfold Field.refusal? at h ⊢
  cases hdelivery : f.delivery messageSetItems with
  | ok t =>
    rw [hdelivery] at h
    exact refusal?_of_fewer hcs hcs' hsub h
  | error e =>
    rw [hdelivery] at h
    cases h

end

end Collector

namespace Decoder

open Collector

variable {fields fields' : List FieldSpec} {options : DecodeOptions} {d d' : Decoder}

section

variable (hd : ofFields fields options = .ok d) (hd' : ofFields fields' options = .ok d')
  (hsub : ∀ spec' ∈ fields', ∃ spec ∈ fields, spec.SameField spec')
include hd hd' hsub

/-- What a decoder of more fields accepts, one of fewer fields accepts. -/
theorem Accepts.of_fewer {m : Bytes} (h : d.Accepts m) : d'.Accepts m := by
  refine ⟨h.complete, fun f hf => ?_⟩
  have hrefusal := h.unrefused f hf
  rw [options_of_ofFields hd] at hrefusal
  rw [options_of_ofFields hd']
  refine fieldRefusal?_of_fewer (valid_of_ofFields hd).fits_start.same.nodup
    (valid_of_ofFields hd').fits_start.same.nodup (fun c' hc' => ?_) hrefusal
  obtain ⟨spec', hspec', rfl⟩ := (mem_start_collectors hd').1 hc'
  obtain ⟨spec, hspec, hsame⟩ := hsub spec' hspec'
  exact ⟨ofSpec spec, (mem_start_collectors hd).2 ⟨spec, hspec, rfl⟩, hsame.number_eq,
    hsame.kind_eq⟩

/-- Requested fields do not influence one another: where the one decoder requests some of the fields
of the other, it decodes what the other decodes, and their common fields have the same columns. -/
theorem decode_fewer_fields (hp : options.onCorrupt = .fail) {messages : List Bytes} {batch : Batch}
    (h : d.decode messages = .ok batch) :
    ∃ batch', d'.decode messages = .ok batch' ∧
      ∀ (i i' : Nat) (spec spec' : FieldSpec), fields[i]? = some spec → fields'[i']? = some spec' →
        spec.number = spec'.number →
        ∃ column, batch.columns[spec.output?.getD i]? = some column ∧
          batch'.columns[spec'.output?.getD i']? = some column := by
  have haccepts := (decode_eq_ok_iff hd hp).1 ⟨batch, h⟩
  obtain ⟨batch', hbatch', hcolumns'⟩ :=
    exists_decode_of_accepts hd' fun m hm => (haccepts m hm).of_fewer hd hd' hsub
  refine ⟨batch', hbatch', fun i i' spec spec' hspec hspec' hn => ?_⟩
  obtain ⟨spec₀, hmem, hsame⟩ := hsub spec' (List.mem_of_getElem? hspec')
  obtain rfl : spec₀ = spec :=
    spec_eq_of_number hd hmem (List.mem_of_getElem? hspec) (hsame.number_eq.trans hn.symm)
  refine ⟨_, column_of_decode hd hp h hspec, ?_⟩
  rw [hcolumns' i' spec' hspec', hsame.ofSpec_eq, hsame.number_eq, hsame.kind_eq]

end

/-- A string that the one decoder reads is skipped by the other, and the column that is left comes
out at another slot. -/
theorem decode_fewer_fields_skipped :
    ofFields [⟨3, .string, false, none, none⟩, ⟨1, .uint32, true, none, none⟩] {} =
        .ok ⟨[⟨⟨1, .uint32, true, none, none⟩, 1⟩, ⟨⟨3, .string, false, none, none⟩, 0⟩], {}⟩ ∧
      ofFields [⟨1, .uint32, true, none, none⟩] {} =
        .ok ⟨[⟨⟨1, .uint32, true, none, none⟩, 0⟩], {}⟩ ∧
      ∃ batch', decode ⟨[⟨⟨1, .uint32, true, none, none⟩, 0⟩], {}⟩
          [[8, 5], [8, 1, 26, 2, 97, 98, 10, 1, 2]] = .ok batch' ∧
        batch'.columns[0]? = some ⟨.uint32, .borrowed, [.uint32 5, .uint32 1, .uint32 2],
          [0, 1, 1]⟩ := by
  have hfields : ofFields [⟨3, .string, false, none, none⟩, ⟨1, .uint32, true, none, none⟩] {} =
      .ok ⟨[⟨⟨1, .uint32, true, none, none⟩, 1⟩, ⟨⟨3, .string, false, none, none⟩, 0⟩], {}⟩ := by
    cbv
  have hfewer : ofFields [⟨1, .uint32, true, none, none⟩] {} =
      .ok ⟨[⟨⟨1, .uint32, true, none, none⟩, 0⟩], {}⟩ := by cbv
  have hbatch : decode
      ⟨[⟨⟨1, .uint32, true, none, none⟩, 1⟩, ⟨⟨3, .string, false, none, none⟩, 0⟩], {}⟩
        [[8, 5], [8, 1, 26, 2, 97, 98, 10, 1, 2]] =
      .ok ⟨[3, 1], [⟨.bytes, .borrowed, [.bytes [97, 98]], [1]⟩,
        ⟨.uint32, .borrowed, [.uint32 5, .uint32 1, .uint32 2], [0, 1, 1]⟩], 2, 0⟩ := by cbv
  have hsame : FieldSpec.SameField ⟨1, .uint32, true, none, none⟩ ⟨1, .uint32, true, none, none⟩ :=
    ⟨rfl, rfl, rfl⟩
  obtain ⟨batch', hbatch', hcolumns⟩ :=
    decode_fewer_fields hfields hfewer (by simpa using .inr hsame) rfl hbatch
  obtain ⟨column, hcolumn, hcolumn'⟩ := hcolumns 1 0 _ _ rfl rfl rfl
  exact ⟨hfields, hfewer, batch', hbatch', hcolumn'.trans hcolumn.symm⟩

end Decoder

end WireColumns
