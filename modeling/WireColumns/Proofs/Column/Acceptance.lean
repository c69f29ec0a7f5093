import WireColumns.Proofs.Column.Accumulation

/-! # Accepted messages

A message is accepted if its walk ends properly and none of its occurrences is refused
(`Decoder.Accepts`). A decoder that does not skip corrupt messages decodes the batches of accepted
messages and no others (`Decoder.decode_eq_ok_iff`), and the columns hold what the occurrences of
each message are worth (`Decoder.column_of_decode`). -/

namespace WireColumns

/-- The values that the occurrences of a walk have for a field. -/
def Walk.valuesFor (messageSetItems : Bool) (number : UInt32) (kind : FieldKind) (w : Walk) :
    List Value :=
  w.fields.flatMap (Field.valuesFor messageSetItems number kind)

namespace Decoder

open Collector

variable {d : Decoder} {s s' : Session} {m : Bytes} {messages : List Bytes} {batch : Batch}

/-- Nothing keeps the decoder from decoding the message. -/
structure Accepts (d : Decoder) (m : Bytes) : Prop where
  complete : (Walk.ofMessage m).untilEndGroup.ending = .complete
  unrefused : ∀ f ∈ (Walk.ofMessage m).untilEndGroup.fields,
    f.refusal? d.options.messageSetItems d.start.collectors = none

theorem Accepts.adds (h : d.Accepts m) (hd : d.Valid) :
    d.Adds m fun n k =>
      (Walk.ofMessage m).untilEndGroup.valuesFor d.options.messageSetItems n k :=
  adds_of_accepted hd (congrArg (Walk.mk _) h.complete) h.unrefused

/-- Accepted messages whose occurrences are worth the same to every field do the same. -/
theorem Accepts.consume_congr {m' : Bytes} (h : d.Accepts m) (h' : d.Accepts m') (hd : d.Valid)
    (hs : d.Fits s)
    (hvalues : ∀ n k,
      (Walk.ofMessage m).untilEndGroup.valuesFor d.options.messageSetItems n k =
        (Walk.ofMessage m').untilEndGroup.valuesFor d.options.messageSetItems n k) :
    d.consume s m = d.consume s m' := by
  rw [h.adds hd s hs, h'.adds hd s hs]
  refine congrArg (fun cs => Except.ok (Session.mk cs _ _)) ?_
  exact addAll_congr (fun c _ => hvalues c.number c.kind) _

theorem accepts_of_dispatched (hd : d.Valid) (hs : d.Fits s) {cs : Array Collector}
    (h : d.dispatched s m = .ok () cs) : d.Accepts m := by
  rw [dispatched_of_walk hd hs rfl] at h
  refine ⟨Walk.ending_of_visit_ok h, fun f hf => ?_⟩
  rw [← hs.refusal?_eq]
  exact refusal?_of_visit_ok hs.same.nodup h f hf

/-- A message does the same wherever it stands in a batch: it adds certain values, or it is refused
for a certain reason. -/
theorem adds_or_refused (hd : d.Valid) (m : Bytes) :
    (∃ values, d.Adds m values) ∨ ∃ e, ∀ s, d.Fits s → d.consume s m = d.refuse s e := by
  cases hstart : d.dispatched d.start m with
  | ok _ cs => exact .inl ⟨_, (accepts_of_dispatched hd hd.fits_start hstart).adds hd⟩
  | error e cs =>
    refine .inr ⟨e, fun s hs => ?_⟩
    have hagree := lookupMessage_agree hs.same.sameKinds d.options.messageSetItems m s.messageCount
      d.start.messageCount
    rw [← hs.dispatched_eq hd, ← hd.fits_start.dispatched_eq hd, hstart] at hagree
    obtain ⟨_, _, _, h⟩ | ⟨_, cs', _, hdispatched, h⟩ := hagree.ok_or_error
    · cases h
    · cases h
      exact consume_of_dispatched_error hd hs hdispatched

section

variable (hd : d.Valid) (hp : d.options.onCorrupt = .fail)
include hd hp

theorem accepts_of_consume (hs : d.Fits s) (h : d.consume s m = .ok s') : d.Accepts m := by
  rw [consume_fail hp] at h
  cases hdispatched : d.dispatched s m with
  | ok _ cs => exact accepts_of_dispatched hd hs hdispatched
  | error e cs =>
    rw [hdispatched] at h
    cases h

theorem accepts_of_foldlM (hs : d.Fits s) (h : messages.foldlM d.consume s = .ok s') :
    ∀ m ∈ messages, d.Accepts m := by
  induction messages generalizing s with
  | nil => simp
  | cons m messages ih =>
    obtain ⟨s₁, hstep, hrest⟩ := of_foldlM_cons h
    exact List.forall_mem_cons.2
      ⟨accepts_of_consume hd hp hs hstep, ih (hs.consume hd hstep) hrest⟩

theorem accepts_of_decode (h : d.decode messages = .ok batch) : ∀ m ∈ messages, d.Accepts m := by
  obtain ⟨s, hrun, -⟩ := exists_foldlM_of_decode h
  exact accepts_of_foldlM hd hp hd.fits_start hrun

end

section

variable {fields : List FieldSpec} {options : DecodeOptions} (hd : ofFields fields options = .ok d)
include hd

/-- The columns of accepted messages. -/
theorem exists_decode_of_accepts (h : ∀ m ∈ messages, d.Accepts m) :
    ∃ batch, d.decode messages = .ok batch ∧
      ∀ (i : Nat) (spec : FieldSpec), fields[i]? = some spec →
        batch.columns[spec.output?.getD i]? = some
          (((ofSpec spec).gather 0 (messages.map fun m =>
            (Walk.ofMessage m).untilEndGroup.valuesFor options.messageSetItems
              spec.number spec.kind)).toColumn options.ownership) := by
  obtain rfl := options_of_ofFields hd
  have hadds : ∀ m ∈ messages, d.Adds (id m) fun n k =>
      (Walk.ofMessage m).untilEndGroup.valuesFor d.options.messageSetItems n k :=
    fun m hm => (h m hm).adds (valid_of_ofFields hd)
  obtain ⟨batch, hbatch, -, -, hcolumns⟩ := decode_adds hd hadds
  rw [List.map_id] at hbatch
  exact ⟨batch, hbatch, hcolumns⟩

variable (hp : options.onCorrupt = .fail)
include hp

theorem decode_eq_ok_iff :
    (∃ batch, d.decode messages = .ok batch) ↔ ∀ m ∈ messages, d.Accepts m := by
  constructor
  · rintro ⟨batch, hbatch⟩
    rw [← options_of_ofFields hd] at hp
    exact accepts_of_decode (valid_of_ofFields hd) hp hbatch
  · intro h
    obtain ⟨batch, hbatch, -⟩ := exists_decode_of_accepts hd h
    exact ⟨batch, hbatch⟩

/-- A column holds the values of the occurrences of its field, message by message. -/
theorem column_of_decode (h : d.decode messages = .ok batch) {i : Nat} {spec : FieldSpec}
    (hspec : fields[i]? = some spec) :
    batch.columns[spec.output?.getD i]? = some
      (((ofSpec spec).gather 0 (messages.map fun m =>
        (Walk.ofMessage m).untilEndGroup.valuesFor options.messageSetItems
          spec.number spec.kind)).toColumn options.ownership) := by
  have haccepts := (decode_eq_ok_iff hd hp).1 ⟨batch, h⟩
  obtain ⟨batch', hbatch', hcolumns⟩ := exists_decode_of_accepts hd haccepts
  obtain rfl : batch = batch' := Except.ok.inj (h.symm.trans hbatch')
  exact hcolumns i spec hspec

end

end Decoder

end WireColumns
