import WireColumns.Proofs.Column.Accumulation
import WireColumns.Proofs.Wire.Packing

/-! # Packing is invisible

However the values of a packable field are cut into packed runs and single occurrences, and however
these stand among the occurrences of other fields, the batch is the same
(`Decoder.decode_packing`). A segment of a message brings the field its values and nothing else
(`Segment.valuesFor_field`), and it is refused only where an occurrence of another field is
(`Segment.refusal?_field`). -/

namespace WireColumns

theorem FieldSpec.number_of_validate {spec : FieldSpec} (h : spec.validate = .ok ()) :
    spec.number ≠ 0 ∧ spec.number ≤ Tag.maxNumber := by
  unfold validate at h
  split at h
  next => cases h
  next hrange =>
    rw [not_or, UInt32.not_lt] at hrange
    exact hrange

theorem Field.delivery_of_wire {f : Field} (h : f.tag.wire ≠ .startGroup) (messageSetItems : Bool) :
    f.delivery messageSetItems = .ok ⟨f.tag.number, f.tag.wire, f.payload⟩ := by
  refine delivery_of_ne (fun heq => h ?_) messageSetItems
  rw [heq]
  rfl

namespace Segment

/-- The segments of a message, of which those that are not the field's bring nothing to it. -/
structure Layout (messageSetItems : Bool) (number : UInt32) (kind : FieldKind)
    (segments : List Segment) : Prop where
  wellFormed : ∀ p ∈ segments, p.WellFormed kind
  foreign : ∀ f ∈ segments.flatMap others, ∀ t,
    f.delivery messageSetItems = .ok t → t.number ≠ number

/-- The same values of the field, and the same occurrences of other fields. -/
def SameContent (segments segments' : List Segment) : Prop :=
  segments.flatMap scalars = segments'.flatMap scalars ∧
    segments.flatMap others = segments'.flatMap others

variable {messageSetItems : Bool} {number : UInt32} {kind : FieldKind} {p : Segment}
  {segments segments' : List Segment}

/-! ## One segment -/

section

variable (hkind : kind.isPackable = true) (h : p.WellFormed kind)
include hkind h

/-- A segment of the field itself brings it the segment's values. -/
theorem WellFormed.delivery_eq (hp : p.others = []) (messageSetItems : Bool) (number : UInt32) :
    ∃ wire payload, (p.field number).delivery messageSetItems = .ok ⟨number, wire, payload⟩ ∧
      kind.interpret wire payload = ⟨p.scalars.map Scalar.value, none⟩ := by
  cases h with
  | @single v hv =>
    have hstart : v.kind.wireType ≠ .startGroup := hv ▸ (kind.isPackable_iff.1 hkind).2
    exact ⟨_, _, Field.delivery_of_wire hstart _, interpret_single hkind hv⟩
  | run hvs hshort =>
    exact ⟨_, _, Field.delivery_of_wire (f := field number (.run _)) nofun _,
      interpret_run hkind hvs hshort⟩
  | other => cases hp

theorem valuesFor_field
    (hforeign : ∀ f ∈ p.others, ∀ t, f.delivery messageSetItems = .ok t → t.number ≠ number) :
    (p.field number).valuesFor messageSetItems number kind = p.scalars.map Scalar.value := by
  unfold Field.valuesFor
  cases p with
  | single | run =>
    obtain ⟨wire, payload, hdelivery, hinterpret⟩ := h.delivery_eq hkind rfl messageSetItems number
    rw [hdelivery]
    dsimp only
    rw [Delivery.valuesFor, if_pos rfl, hinterpret]
  | other f =>
    cases hdelivery : (field number (other f)).delivery messageSetItems with
    | ok t => exact if_neg (hforeign f List.mem_cons_self t hdelivery)
    | error e => rfl

theorem valuesFor_field_of_ne {n : UInt32} (hn : number ≠ n) (k : FieldKind) :
    (p.field number).valuesFor messageSetItems n k =
      p.others.flatMap (Field.valuesFor messageSetItems n k) := by
  cases p with
  | single | run =>
    obtain ⟨wire, payload, hdelivery, -⟩ := h.delivery_eq hkind rfl messageSetItems number
    rw [Field.valuesFor, hdelivery]
    exact if_neg hn
  | other f => exact (List.flatMap_singleton ..).symm

theorem refusal?_field {cs : Array Collector} (hcs : ∀ c ∈ cs, c.number = number → c.kind = kind) :
    (p.field number).refusal? messageSetItems cs =
      p.others.findSome? (Field.refusal? messageSetItems cs) := by
  cases p with
  | single | run =>
    obtain ⟨wire, payload, hdelivery, hinterpret⟩ := h.delivery_eq hkind rfl messageSetItems number
    rw [Field.refusal?, hdelivery]
    dsimp only
    rw [Collector.refusal?]
    cases hfind : cs.toList.find? (·.number == number) with
    | none => rfl
    | some c =>
      have hc : c ∈ cs := Array.mem_toList_iff.1 (List.mem_of_find?_eq_some hfind)
      have hn : c.number = number := by simpa using List.find?_some hfind
      rw [Option.bind_some, hcs c hc hn, hinterpret]
      rfl
  | other f =>
    change f.refusal? messageSetItems cs = [f].findSome? _
    rw [List.findSome?_singleton]

end

/-! ## Whole messages -/

theorem findSome?_flatMap_others {α : Type} (g : Field → Option α) {f : Segment → Field}
    (h : ∀ p ∈ segments, g (f p) = p.others.findSome? g) :
    (segments.map f).findSome? g = (segments.flatMap others).findSome? g := by
  induction segments with
  | nil => rfl
  | cons p segments ih =>
    rw [List.forall_mem_cons] at h
    rw [List.map_cons, List.findSome?_cons, List.flatMap_cons, List.findSome?_append, h.1, ih h.2]
    cases p.others.findSome? g <;> rfl

section

variable (hkind : kind.isPackable = true) (h : Layout messageSetItems number kind segments)
include hkind h

theorem Layout.values :
    (segments.map (field number)).flatMap (Field.valuesFor messageSetItems number kind) =
      (segments.flatMap scalars).map Scalar.value := by
  rw [List.flatMap_map, List.map_flatMap]
  refine List.flatMap_congr fun p hp => valuesFor_field hkind (h.wellFormed p hp) fun f hf => ?_
  exact h.foreign f (List.mem_flatMap_of_mem hp hf)

theorem Layout.values_of_ne {n : UInt32} (hn : number ≠ n) (k : FieldKind) :
    (segments.map (field number)).flatMap (Field.valuesFor messageSetItems n k) =
      (segments.flatMap others).flatMap (Field.valuesFor messageSetItems n k) := by
  rw [List.flatMap_map, List.flatMap_assoc]
  exact List.flatMap_congr fun p hp => valuesFor_field_of_ne hkind (h.wellFormed p hp) hn k

theorem Layout.refusal? {cs : Array Collector}
    (hcs : ∀ c ∈ cs, c.number = number → c.kind = kind) :
    (segments.map (field number)).findSome? (Field.refusal? messageSetItems cs) =
      (segments.flatMap others).findSome? (Field.refusal? messageSetItems cs) :=
  findSome?_flatMap_others _ fun p hp => refusal?_field hkind (h.wellFormed p hp) hcs

end

/-! ## Values in occurrences of their own -/

theorem scalars_single (vs : List Scalar) : (vs.map single).flatMap scalars = vs := by
  rw [List.flatMap_map]
  exact List.flatMap_singleton' vs

theorem others_single (vs : List Scalar) : (vs.map single).flatMap others = [] := by
  rw [List.flatMap_map, List.flatMap_eq_nil_iff]
  exact fun v _ => rfl

theorem layout_single {vs : List Scalar} (h : ∀ v ∈ vs, v.kind = kind) :
    Layout messageSetItems number kind (vs.map single) := by
  refine ⟨List.forall_mem_map.2 fun v hv => .single (h v hv), ?_⟩
  rw [others_single]
  exact nofun

theorem Layout.scalars_kind (h : Layout messageSetItems number kind segments) :
    ∀ v ∈ segments.flatMap scalars, v.kind = kind := by
  intro v hv
  obtain ⟨p, hp, hv⟩ := List.mem_flatMap.1 hv
  cases h.wellFormed p hp with
  | single hkind => exact List.mem_singleton.1 hv ▸ hkind
  | run hkinds => exact hkinds v hv
  | other => cases hv

end Segment

namespace Decoder

open Collector Segment

variable {d : Decoder} {s : Session} {fields : List FieldSpec} {options : DecodeOptions}
  {i : Nat} {spec : FieldSpec} {segments segments' : List Segment}

section

variable (hd : ofFields fields options = .ok d) (hspec : fields[i]? = some spec)
include hd hspec

/-- The collector of a requested field has the field's kind. -/
theorem kind_of_number (hs : d.Fits s) :
    ∀ c ∈ s.collectors, c.number = spec.number → c.kind = spec.kind := by
  intro c hc hn
  obtain ⟨c', hc', hnumber, hkind⟩ := exists_of_clearAll_eq hs.same.clearAll_eq hc
  obtain ⟨spec', hspec', rfl⟩ := (mem_start_collectors hd).1 hc'
  rw [← hkind, spec_eq_of_number hd hspec' (List.mem_of_getElem? hspec) (hnumber.trans hn)]
  rfl

theorem number_of_ofFields : spec.number ≠ 0 ∧ spec.number ≤ Tag.maxNumber := by
  obtain ⟨hvalidate, -⟩ := ofFields_eq_ok_iff.1 hd
  exact FieldSpec.number_of_validate (hvalidate spec (List.mem_of_getElem? hspec))

variable (hkind : spec.kind.isPackable = true)
include hkind

/-- Messages with the same content do the same, whatever their layout. -/
theorem consume_of_sameContent (h : Layout options.messageSetItems spec.number spec.kind segments)
    (h' : Layout options.messageSetItems spec.number spec.kind segments')
    (hsame : SameContent segments segments') (hs : d.Fits s) :
    d.consume s (encode spec.number spec.kind segments) =
      d.consume s (encode spec.number spec.kind segments') := by
  have hvalid := valid_of_ofFields hd
  obtain rfl := options_of_ofFields hd
  obtain ⟨hpos, hle⟩ := number_of_ofFields hd hspec
  obtain ⟨hscalars, hothers⟩ := hsame
  have hwalk := walk_encode hkind hpos hle h.wellFormed
  have hwalk' := walk_encode hkind hpos hle h'.wellFormed
  have hcs := kind_of_number hd hspec hvalid.fits_start
  have hrefusal := h.refusal? hkind hcs
  have hrefusal' := h'.refusal? hkind hcs
  rw [← hothers] at hrefusal'
  -- only another field can be refused, and the first one that is decides for both layouts
  cases hfind : (segments.flatMap others).findSome?
      (Field.refusal? d.options.messageSetItems d.start.collectors) with
  | some e =>
    rw [consume_of_refused hvalid hs hwalk (hrefusal.trans hfind),
      consume_of_refused hvalid hs hwalk' (hrefusal'.trans hfind)]
  | none =>
    have hadds := adds_of_accepted hvalid hwalk
      (List.findSome?_eq_none_iff.1 (hrefusal.trans hfind))
    have hadds' := adds_of_accepted hvalid hwalk'
      (List.findSome?_eq_none_iff.1 (hrefusal'.trans hfind))
    rw [hadds s hs, hadds' s hs]
    refine congrArg (fun cs => Except.ok (Session.mk cs _ _)) (addAll_congr (fun c hc => ?_) _)
    by_cases hn : spec.number = c.number
    · have hk := kind_of_number hd hspec hs c hc hn.symm
      rw [← hn, hk, h.values hkind, h'.values hkind, hscalars]
    · rw [h.values_of_ne hkind hn, h'.values_of_ne hkind hn, hothers]

/-- A message adds the values of the field, wherever they stand, if no occurrence of another field
is refused. -/
theorem column_of_layout {messages : List (List Segment)}
    (h : ∀ segments ∈ messages, Layout options.messageSetItems spec.number spec.kind segments)
    (hothers : ∀ segments ∈ messages, ∀ f ∈ segments.flatMap others,
      f.refusal? options.messageSetItems d.start.collectors = none) :
    ∃ batch, d.decode (messages.map (encode spec.number spec.kind)) = .ok batch ∧
      batch.columns[spec.output?.getD i]? = some
        (((ofSpec spec).gather 0 (messages.map fun segments =>
          (segments.flatMap scalars).map Scalar.value)).toColumn options.ownership) := by
  have hvalid := valid_of_ofFields hd
  obtain rfl := options_of_ofFields hd
  obtain ⟨hpos, hle⟩ := number_of_ofFields hd hspec
  have hcs := kind_of_number hd hspec hvalid.fits_start
  have hadds : ∀ segments ∈ messages, d.Adds (encode spec.number spec.kind segments) fun n k =>
      (segments.map (field spec.number)).flatMap
        (Field.valuesFor d.options.messageSetItems n k) := by
    intro segments hsegments
    apply adds_of_accepted hvalid (walk_encode hkind hpos hle (h segments hsegments).wellFormed)
    rw [← List.findSome?_eq_none_iff, (h segments hsegments).refusal? hkind hcs,
      List.findSome?_eq_none_iff]
    exact hothers segments hsegments
  obtain ⟨batch, hbatch, -, -, hcolumns⟩ := decode_adds hd hadds
  refine ⟨batch, hbatch, (hcolumns i spec hspec).trans ?_⟩
  have hvalues : messages.map (fun segments => (segments.map (field spec.number)).flatMap
        (Field.valuesFor d.options.messageSetItems spec.number spec.kind)) =
      messages.map fun segments => (segments.flatMap scalars).map Scalar.value :=
    List.map_congr_left fun segments hsegments => (h segments hsegments).values hkind
  rw [hvalues]

end

/-- Packing is invisible: messages that differ in the layout of a packable field only are decoded
alike, and unless an occurrence of another field is refused, the field's column is the one it has
where every value stands in an occurrence of its own and there are no other fields. -/
theorem decode_packing (hd : ofFields fields options = .ok d) (hspec : fields[i]? = some spec)
    (hkind : spec.kind.isPackable = true) {messages : List (List Segment)}
    (h : ∀ segments ∈ messages, Layout options.messageSetItems spec.number spec.kind segments) :
    (∀ messages' : List (List Segment),
      (∀ segments ∈ messages', Layout options.messageSetItems spec.number spec.kind segments) →
      List.Forall₂ SameContent messages messages' →
      d.decode (messages.map (encode spec.number spec.kind)) =
        d.decode (messages'.map (encode spec.number spec.kind))) ∧
    ((∀ segments ∈ messages, ∀ f ∈ segments.flatMap others,
        f.refusal? options.messageSetItems d.start.collectors = none) →
      ∃ batch batch', d.decode (messages.map (encode spec.number spec.kind)) = .ok batch ∧
        d.decode (messages.map fun segments =>
          encode spec.number spec.kind ((segments.flatMap scalars).map single)) = .ok batch' ∧
        batch.columns[spec.output?.getD i]? = batch'.columns[spec.output?.getD i]? ∧
        batch.columns[spec.output?.getD i]? = some
          { type := spec.kind.valueType
            ownership := options.ownership
            values := (entriesFrom spec.repeated 0 (messages.map fun segments =>
              (segments.flatMap scalars).map Scalar.value)).map Prod.fst
            parents := (entriesFrom spec.repeated 0 (messages.map fun segments =>
              (segments.flatMap scalars).map Scalar.value)).map Prod.snd }) := by
  refine ⟨fun messages' h' hsame => ?_, fun hothers => ?_⟩
  · apply decode_congr (valid_of_ofFields hd)
    rw [List.forall₂_map_left_iff, List.forall₂_map_right_iff]
    induction hsame with
    | nil => exact .nil
    | @cons segments segments' messages messages' hsegments hmessages ih =>
      rw [List.forall_mem_cons] at h h'
      refine .cons (fun s hs => ?_) (ih h.2 h'.2)
      exact consume_of_sameContent hd hspec hkind h.1 h'.1 hsegments hs
  · obtain ⟨batch, hbatch, hcolumn⟩ := column_of_layout hd hspec hkind h hothers
    have hsingle : ∀ segments ∈ messages.map fun segments => (segments.flatMap scalars).map single,
        Layout options.messageSetItems spec.number spec.kind segments :=
      List.forall_mem_map.2 fun segments hmem => layout_single (h segments hmem).scalars_kind
    have hnone : ∀ segments ∈ messages.map fun segments => (segments.flatMap scalars).map single,
        ∀ f ∈ segments.flatMap others,
          f.refusal? options.messageSetItems d.start.collectors = none := by
      refine List.forall_mem_map.2 fun segments _ => ?_
      rw [others_single]
      exact nofun
    obtain ⟨batch', hbatch', hcolumn'⟩ := column_of_layout hd hspec hkind hsingle hnone
    rw [List.map_map] at hbatch' hcolumn'
    simp only [Function.comp_def, scalars_single] at hbatch' hcolumn'
    refine ⟨batch, batch', hbatch, hbatch', hcolumn.trans hcolumn'.symm, hcolumn.trans ?_⟩
    simp [toColumn, gather, ofSpec]

/-- A run of two values and a single one, with a field in between that is not requested. -/
theorem decode_packing_run_and_single :
    ofFields [⟨1, .sint32, true, none, none⟩] {} =
        .ok ⟨[⟨⟨1, .sint32, true, none, none⟩, 0⟩], {}⟩ ∧
      ∃ batch batch',
        decode ⟨[⟨⟨1, .sint32, true, none, none⟩, 0⟩], {}⟩
          [encode 1 .sint32 [.run [.sint32 (-1), .sint32 2],
            .other (Occurrence.scalar 2 (.bool true)).field, .single (.sint32 3)]] = .ok batch ∧
        decode ⟨[⟨⟨1, .sint32, true, none, none⟩, 0⟩], {}⟩
          [encode 1 .sint32 [.single (.sint32 (-1)), .single (.sint32 2), .single (.sint32 3)]] =
            .ok batch' ∧
        batch.columns[0]? = batch'.columns[0]? := by
  have hfields : ofFields [⟨1, .sint32, true, none, none⟩] {} =
      .ok ⟨[⟨⟨1, .sint32, true, none, none⟩, 0⟩], {}⟩ := by cbv
  have hother : (Occurrence.scalar 2 (.bool true)).WellFormed :=
    .scalar (by decide) (by decide) trivial
  have hlayout : Layout false 1 .sint32 [.run [.sint32 (-1), .sint32 2],
      .other (Occurrence.scalar 2 (.bool true)).field, .single (.sint32 3)] := by
    refine ⟨?_, ?_⟩
    · simp only [List.forall_mem_cons, List.not_mem_nil, false_imp_iff, implies_true, and_true]
      refine ⟨.run ?_ (by cbv), .other hother.framed (by decide), .single rfl⟩
      simp [Scalar.kind]
    · intro f hf t ht
      obtain rfl := List.mem_singleton.1 hf
      cases ht
      decide
  have hspec : [(⟨1, .sint32, true, none, none⟩ : FieldSpec)][0]? =
      some ⟨1, .sint32, true, none, none⟩ := rfl
  obtain ⟨-, hcolumn⟩ :=
    decode_packing hfields hspec rfl (List.forall_mem_singleton.2 hlayout)
  obtain ⟨batch, batch', hbatch, hbatch', hsame, -⟩ := hcolumn <| by
    refine List.forall_mem_singleton.2 fun f hf => ?_
    obtain rfl := List.mem_singleton.1 hf
    rfl
  exact ⟨hfields, batch, batch', hbatch, hbatch', hsame⟩

end Decoder

end WireColumns
