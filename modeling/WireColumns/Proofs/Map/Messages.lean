import WireColumns.Proofs.Column.Selection
import WireColumns.Proofs.Map.Columns
import WireColumns.Proofs.Wire.Framing

/-! # Entries of a map as messages

An entry that a map decoder reads holds nothing that a decoder of its two fields refuses
(`MapDecoder.WellFormedEntry.refusal?_eq_none`), and both find the same keys and values in it
(`MapDecoder.WellFormedEntry.flatMap_valuesFor`). What differs is the end: an entry is read on
behind a tag that closes a group, where a message must be over. So the two decoders agree on the
entries in which nothing follows such a tag, and on no other
(`MapDecoder.decode_entry_as_message`). -/

namespace WireColumns

namespace Field

variable {number : UInt32} {kind : FieldKind} {f : Field} {fields : List Field}

theorem Holds.exists_interpret_eq (h : f.Holds kind) :
    ∃ v, kind.read.eval f.payload = .ok v ∧
      kind.interpret f.tag.wire f.payload = ⟨[v], none⟩ := by
  obtain ⟨hwire, v, hv⟩ := h
  refine ⟨v, hv, ?_⟩
  rw [FieldKind.interpret, if_pos hwire, hv]

/-- A tag that closes a group brings no value to any field. -/
theorem valuesFor_of_endGroup (h : f.tag.wire = .endGroup) (messageSetItems : Bool)
    (number : UInt32) (kind : FieldKind) : f.valuesFor messageSetItems number kind = [] := by
  have hne : f.tag ≠ Tag.messageSetItem := by
    intro heq
    rw [heq] at h
    cases h
  have hinterpret : kind.interpret .endGroup f.payload = ⟨[], none⟩ := by
    cases kind <;> rfl
  rw [valuesFor, delivery_of_ne hne]
  simp [Delivery.valuesFor, h, hinterpret]

/-- Where all occurrences of a field can be read, its values are those read. -/
theorem flatMap_valuesFor_eq (hne : ∀ f ∈ fields, f.tag ≠ Tag.messageSetItem)
    (hholds : ∀ f ∈ fields, f.tag.number = number → f.Holds kind) (messageSetItems : Bool) :
    fields.flatMap (valuesFor messageSetItems number kind) = valuesOf number kind fields := by
  induction fields with
  | nil => rfl
  | cons f fields ih =>
    rw [List.forall_mem_cons] at hne hholds
    rw [List.flatMap_cons, ih hne.2 hholds.2, valuesFor, delivery_of_ne hne.1]
    dsimp only [Delivery.valuesFor]
    by_cases hn : f.tag.number = number
    · obtain ⟨v, hv, hinterpret⟩ := (hholds.1 hn).exists_interpret_eq
      rw [if_pos hn, hinterpret, valuesOf_cons_of_eq hn hv, List.singleton_append]
    · rw [if_neg hn, valuesOf_cons_of_ne hn, List.nil_append]

end Field

namespace MapDecoder

open Collector

variable {config : MapConfig} {md : MapDecoder} {d : Decoder} {entry : Bytes}
  {keyKind valueKind : FieldKind}

/-- A key is not a group. -/
theorem keyKind_of_ofConfig (hmd : ofConfig config = .ok md) :
    config.keyKind.wireType ≠ .startGroup := by
  unfold ofConfig at hmd
  split at hmd
  next => cases hmd
  next =>
    split at hmd
    next => cases hmd
    next parse hparse =>
      intro hwire
      cases hkind : config.keyKind <;> rw [hkind] at hwire hparse <;> cases hwire
      cases hparse

/-! ## The occurrences of an entry -/

section

variable (hentry : WellFormedEntry keyKind valueKind entry) (hkey : keyKind.wireType ≠ .startGroup)
include hentry hkey

/-- An entry has no items of a message set, as its keys are not groups. -/
theorem WellFormedEntry.tag_ne :
    ∀ f ∈ (Walk.ofMessage entry).fields, f.tag ≠ Tag.messageSetItem := by
  intro f hf heq
  refine hkey ((hentry.keys f hf ?_).1.symm.trans ?_)
  · rw [heq]
    rfl
  · rw [heq]
    rfl

theorem WellFormedEntry.refusal?_eq_none {cs : Array Collector} (hnodup : (numbers cs).Nodup)
    (hcs : ∀ c ∈ cs, c.number = keyNumber ∧ c.kind = keyKind ∨
      c.number = valueNumber ∧ c.kind = valueKind) (messageSetItems : Bool) :
    ∀ f ∈ (Walk.ofMessage entry).fields, f.refusal? messageSetItems cs = none := by
  intro f hf
  rw [Field.refusal?, Field.delivery_of_ne (hentry.tag_ne hkey f hf)]
  dsimp only
  rw [refusal?_eq_none_iff hnodup]
  intro c hc hn
  have hholds : f.Holds c.kind := by
    rcases hcs c hc with ⟨hnumber, hkind⟩ | ⟨hnumber, hkind⟩
    · rw [hkind]
      exact hentry.keys f hf (hn.symm.trans hnumber)
    · rw [hkind]
      exact hentry.values f hf (hn.symm.trans hnumber)
  obtain ⟨v, -, hinterpret⟩ := hholds.exists_interpret_eq
  rw [hinterpret]

/-- If nothing follows a tag that closes a group, the message has the values of the entry. -/
theorem WellFormedEntry.flatMap_valuesFor {number : UInt32} {kind : FieldKind}
    (hholds : ∀ f ∈ (Walk.ofMessage entry).fields, f.tag.number = number → f.Holds kind)
    (hcomplete : (Walk.ofMessage entry).untilEndGroup.ending = .complete) (messageSetItems : Bool) :
    (Walk.ofMessage entry).untilEndGroup.valuesFor messageSetItems number kind =
      Field.valuesOf number kind (Walk.ofMessage entry).fields := by
  obtain ⟨-, -, closing, hfields, -, hclosing⟩ :=
    Walk.fields_of_untilEndGroup_complete hcomplete
  have hnothing : closing.flatMap (Field.valuesFor messageSetItems number kind) = [] := by
    rw [List.flatMap_eq_nil_iff]
    intro f hf
    exact f.valuesFor_of_endGroup (hclosing f hf) ..
  rw [Walk.valuesFor, ← Field.flatMap_valuesFor_eq (hentry.tag_ne hkey) hholds messageSetItems,
    hfields, List.flatMap_append, hnothing, List.append_nil]

end

/-! ## The decoder of an entry's fields -/

/-- The fields at the given places are the key and the value of a map's entries, each of them
singular, and there is no other. -/
structure EntryFields (config : MapConfig) (fields : List FieldSpec) (key value : FieldSpec)
    (i j : Nat) : Prop where
  key_same : key.SameField ⟨keyNumber, config.keyKind, false, none, none⟩
  value_same : value.SameField ⟨valueNumber, config.valueKind, false, none, none⟩
  key_at : fields[i]? = some key
  value_at : fields[j]? = some value
  only : ∀ spec ∈ fields, spec = key ∨ spec = value

theorem Reads.contribution_of_readEntry (hr : md.Reads config) {k : Value} {v? : Option Value}
    (h : md.readEntry entry = .ok (k, v?)) (slot : Nat) :
    config.contribution slot entry = if config.IsColumnOf k slot then v? else none := by
  obtain ⟨hkey, hvalue⟩ := getLast?_of_readEntry h
  rw [hr.keyKind_eq] at hkey
  rw [hr.valueKind_eq] at hvalue
  simp only [MapConfig.contribution, hkey, hvalue]

/-- What a map decoder gives for a single entry. -/
theorem Reads.of_decode_singleton (hr : md.Reads config) {parent : Int} {columns : List Column}
    (h : md.decode [entry] [parent] = .ok columns) :
    ∃ (k : Value) (v? : Option Value), md.readEntry entry = .ok (k, v?) ∧
      columns = (List.range config.keys.length).map fun slot =>
        .ofParent config.valueKind.valueType config.ownership parent
          (if config.IsColumnOf k slot then v?.toList else []) := by
  rw [decode_eq rfl] at h
  cases hread : [entry].mapM md.readEntry with
  | error cause =>
    rw [hread] at h
    cases h
  | ok read =>
    rw [hread] at h
    cases h
    have hall := mapM_eq_ok_iff.1 hread
    cases hall with
    | @cons _ r _ _ hr' hnil =>
      cases hnil
      obtain ⟨k, v?⟩ := r
      refine ⟨k, v?, hr', ?_⟩
      rw [hr.length_eq]
      refine List.map_congr_left fun slot _ => ?_
      rw [hr.columnAt_placed (.cons hr' .nil)]
      simp only [MapConfig.columnOf, List.zip_cons_cons, List.zip_nil_left, List.filterMap_cons,
        List.filterMap_nil, hr.contribution_of_readEntry hr']
      by_cases hslot : config.IsColumnOf k slot
      · cases v? <;> simp [hslot, Column.ofParent]
      · simp [hslot, Column.ofParent]

section

variable {fields : List FieldSpec} {options : DecodeOptions} {key value : FieldSpec} {i j : Nat}

/-- A singular field keeps the last of the entry's values for it. -/
theorem WellFormedEntry.column_of_decode (hentry : WellFormedEntry keyKind valueKind entry)
    (hkey : keyKind.wireType ≠ .startGroup) (hd : Decoder.ofFields fields options = .ok d)
    (hp : options.onCorrupt = .fail) {batch : Batch} (hbatch : d.decode [entry] = .ok batch)
    {spec : FieldSpec} (hspec : fields[i]? = some spec) {number : UInt32} {kind : FieldKind}
    (hsame : spec.SameField ⟨number, kind, false, none, none⟩)
    (hholds : ∀ f ∈ (Walk.ofMessage entry).fields, f.tag.number = number → f.Holds kind) :
    batch.columns[spec.output?.getD i]? =
      some (.ofParent kind.valueType options.ownership 0
        (Field.valuesOf number kind (Walk.ofMessage entry).fields).getLast?.toList) := by
  have haccepts := (Decoder.decode_eq_ok_iff hd hp).1 ⟨batch, hbatch⟩ entry (by simp)
  rw [Decoder.column_of_decode hd hp hbatch hspec, List.map_singleton, toColumn_gather_singleton,
    hsame.number_eq, hsame.kind_eq, hsame.repeated_eq,
    hentry.flatMap_valuesFor hkey hholds haccepts.complete]
  rfl

variable (hd : Decoder.ofFields fields options = .ok d)
  (hfields : EntryFields config fields key value i j)
include hd hfields

theorem EntryFields.of_mem_start {c : Collector} (hc : c ∈ d.start.collectors) :
    c.number = keyNumber ∧ c.kind = config.keyKind ∨
      c.number = valueNumber ∧ c.kind = config.valueKind := by
  obtain ⟨spec, hspec, rfl⟩ := (Decoder.mem_start_collectors hd).1 hc
  rcases hfields.only spec hspec with rfl | rfl
  · exact .inl ⟨hfields.key_same.number_eq, hfields.key_same.kind_eq⟩
  · exact .inr ⟨hfields.value_same.number_eq, hfields.value_same.kind_eq⟩

/-- Whether an entry is accepted as a message depends on where a tag closes a group in it. -/
theorem EntryFields.decode_eq_ok_iff (hp : options.onCorrupt = .fail)
    (hentry : WellFormedEntry config.keyKind config.valueKind entry)
    (hkey : config.keyKind.wireType ≠ .startGroup) :
    ((∃ batch, d.decode [entry] = .ok batch) ↔
        ∀ f ∈ (Walk.ofMessage entry).fields.dropLast, f.tag.wire ≠ .endGroup) ∧
      ((∃ f ∈ (Walk.ofMessage entry).fields.dropLast, f.tag.wire = .endGroup) →
        d.decode [entry] = .error (.corrupt .bytesAfterEndGroup)) := by
  have hvalid := Decoder.valid_of_ofFields hd
  obtain rfl := Decoder.options_of_ofFields hd
  have hrefusal : ∀ f ∈ (Walk.ofMessage entry).untilEndGroup.fields,
      f.refusal? d.options.messageSetItems d.start.collectors = none := by
    intro f hf
    refine hentry.refusal?_eq_none hkey hvalid.fits_start.same.nodup
      (fun c hc => hfields.of_mem_start hd hc) _ f ?_
    exact (Walk.untilEndGroup_prefix _).subset hf
  have hending := Walk.untilEndGroup_ending hentry.complete
  by_cases hlast : ∀ f ∈ (Walk.ofMessage entry).fields.dropLast, f.tag.wire ≠ .endGroup
  · rw [if_pos hlast] at hending
    refine ⟨⟨fun _ => hlast, fun _ => ?_⟩, ?_⟩
    · exact (Decoder.decode_eq_ok_iff hd hp).2 (List.forall_mem_singleton.2 ⟨hending, hrefusal⟩)
    · rintro ⟨f, hf, hwire⟩
      exact absurd hwire (hlast f hf)
  · rw [if_neg hlast] at hending
    have herror : d.decode [entry] = .error (.corrupt .bytesAfterEndGroup) := by
      rw [Decoder.decode_one, Decoder.consume_of_malformed hvalid hvalid.fits_start
        (congrArg (Walk.mk _) hending) hrefusal, Decoder.refuse, hp]
    refine ⟨⟨?_, fun h => absurd h hlast⟩, fun _ => herror⟩
    rintro ⟨batch, hbatch⟩
    cases herror.symm.trans hbatch

end

/-- A map decoder reads an entry as a decoder of its two fields reads it as a message, except that
it also goes on behind a tag that closes a group. Whatever it accepts, that decoder accepts if
nothing follows such a tag, and refuses as corrupt if something does. Of an entry that both accept,
the value goes into the column of the key. -/
theorem decode_entry_as_message (hmd : ofConfig config = .ok md) {fields : List FieldSpec}
    {options : DecodeOptions} (hd : Decoder.ofFields fields options = .ok d)
    (hp : options.onCorrupt = .fail) {key value : FieldSpec} {i j : Nat}
    (hfields : EntryFields config fields key value i j) {parent : Int} {columns : List Column}
    (h : md.decode [entry] [parent] = .ok columns) :
    ((∃ batch, d.decode [entry] = .ok batch) ↔
        ∀ f ∈ (Walk.ofMessage entry).fields.dropLast, f.tag.wire ≠ .endGroup) ∧
      ((∃ f ∈ (Walk.ofMessage entry).fields.dropLast, f.tag.wire = .endGroup) →
        d.decode [entry] = .error (.corrupt .bytesAfterEndGroup)) ∧
      ∀ batch, d.decode [entry] = .ok batch → ∃ (k : Value) (v? : Option Value),
        batch.columns[key.output?.getD i]? =
          some (.ofParent config.keyKind.valueType options.ownership 0 [k]) ∧
        batch.columns[value.output?.getD j]? =
          some (.ofParent config.valueKind.valueType options.ownership 0 v?.toList) ∧
        columns = (List.range config.keys.length).map fun slot =>
          .ofParent config.valueKind.valueType config.ownership parent
            (if config.IsColumnOf k slot then v?.toList else []) := by
  have hr := reads_of_ofConfig hmd
  have hkey := keyKind_of_ofConfig hmd
  obtain ⟨k, v?, hread, hcolumns⟩ := hr.of_decode_singleton h
  have hentry := wellFormedEntry_of_readEntry hread
  obtain ⟨hk, hv⟩ := getLast?_of_readEntry hread
  rw [hr.keyKind_eq, hr.valueKind_eq] at hentry
  rw [hr.keyKind_eq] at hk
  rw [hr.valueKind_eq] at hv
  obtain ⟨haccepted, hrefused⟩ := hfields.decode_eq_ok_iff hd hp hentry hkey
  refine ⟨haccepted, hrefused, fun batch hbatch => ⟨k, v?, ?_, ?_, hcolumns⟩⟩
  · rw [hentry.column_of_decode hkey hd hp hbatch hfields.key_at hfields.key_same hentry.keys, hk]
    rfl
  · rw [hentry.column_of_decode hkey hd hp hbatch hfields.value_at hfields.value_same
      hentry.values, hv]

/-- The value behind the closing tag is put into the map, where the message is refused. -/
theorem decode_entry_as_message_closed :
    ofConfig ⟨.int32, .int32, ["5"], .borrowed⟩ =
        .ok ⟨.int32, .int32, [.int32 5], .borrowed⟩ ∧
      Decoder.ofFields [⟨1, .int32, false, none, none⟩, ⟨2, .int32, false, none, none⟩] {} =
        .ok ⟨[⟨⟨1, .int32, false, none, none⟩, 0⟩, ⟨⟨2, .int32, false, none, none⟩, 1⟩], {}⟩ ∧
      decode ⟨.int32, .int32, [.int32 5], .borrowed⟩ [[8, 5, 28, 16, 3]] [0] =
        .ok [⟨.int32, .borrowed, [.int32 3], [0]⟩] ∧
      Decoder.decode
          ⟨[⟨⟨1, .int32, false, none, none⟩, 0⟩, ⟨⟨2, .int32, false, none, none⟩, 1⟩], {}⟩
          [[8, 5, 28, 16, 3]] = .error (.corrupt .bytesAfterEndGroup) := by
  have hconfig : ofConfig ⟨.int32, .int32, ["5"], .borrowed⟩ =
      .ok ⟨.int32, .int32, [.int32 5], .borrowed⟩ := by decide
  have hspecs : Decoder.ofFields
        [⟨1, .int32, false, none, none⟩, ⟨2, .int32, false, none, none⟩] {} =
      .ok ⟨[⟨⟨1, .int32, false, none, none⟩, 0⟩, ⟨⟨2, .int32, false, none, none⟩, 1⟩], {}⟩ := by
    cbv
  have hdecode : decode ⟨.int32, .int32, [.int32 5], .borrowed⟩ [[8, 5, 28, 16, 3]] [0] =
      .ok [⟨.int32, .borrowed, [.int32 3], [0]⟩] := by cbv
  have hwalk : (Walk.ofMessage [8, 5, 28, 16, 3]).fields =
      [⟨[8], ⟨1, .varint⟩, [5]⟩, ⟨[28], ⟨3, .endGroup⟩, []⟩, ⟨[16], ⟨2, .varint⟩, [3]⟩] := by cbv
  have hfields : EntryFields ⟨.int32, .int32, ["5"], .borrowed⟩
      [⟨1, .int32, false, none, none⟩, ⟨2, .int32, false, none, none⟩]
      ⟨1, .int32, false, none, none⟩ ⟨2, .int32, false, none, none⟩ 0 1 :=
    ⟨⟨rfl, rfl, rfl⟩, ⟨rfl, rfl, rfl⟩, rfl, rfl, by simp⟩
  obtain ⟨-, hrefused, -⟩ := decode_entry_as_message hconfig hspecs rfl hfields hdecode
  exact ⟨hconfig, hspecs, hdecode, hrefused (by simp [hwalk])⟩

/-- Not every entry that is read is accepted as a message. -/
theorem not_decode_of_decode_entry :
    ¬ ∀ (config : MapConfig) (md : MapDecoder) (d : Decoder) (entry : Bytes)
        (columns : List Column),
      ofConfig config = .ok md →
      Decoder.ofFields [⟨keyNumber, config.keyKind, false, none, none⟩,
        ⟨valueNumber, config.valueKind, false, none, none⟩] {} = .ok d →
      md.decode [entry] [0] = .ok columns →
      ∃ batch, d.decode [entry] = .ok batch := by
  intro hall
  have hconfig : ofConfig ⟨.int32, .int32, ["5"], .borrowed⟩ =
      .ok ⟨.int32, .int32, [.int32 5], .borrowed⟩ := by decide
  have hspecs : Decoder.ofFields
        [⟨keyNumber, .int32, false, none, none⟩, ⟨valueNumber, .int32, false, none, none⟩] {} =
      .ok ⟨[⟨⟨1, .int32, false, none, none⟩, 0⟩, ⟨⟨2, .int32, false, none, none⟩, 1⟩], {}⟩ := by
    cbv
  have hdecode : decode ⟨.int32, .int32, [.int32 5], .borrowed⟩ [[8, 5, 28, 16, 3]] [0] =
      .ok [⟨.int32, .borrowed, [.int32 3], [0]⟩] := by cbv
  have hrefused : Decoder.decode
        ⟨[⟨⟨1, .int32, false, none, none⟩, 0⟩, ⟨⟨2, .int32, false, none, none⟩, 1⟩], {}⟩
        [[8, 5, 28, 16, 3]] = .error (.corrupt .bytesAfterEndGroup) := by cbv
  obtain ⟨batch, hbatch⟩ := hall _ _ _ _ _ hconfig hspecs hdecode
  cases hrefused.symm.trans hbatch

end MapDecoder

end WireColumns
