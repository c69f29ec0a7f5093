import WireColumns.Proofs.Column.Delivery
import WireColumns.Proofs.Column.Requests

/-! # Sessions of a decoder

While a batch is decoded the collectors stay those of the requested fields, and all their values
have parents below the number of messages so far (`Decoder.Fits`). So a message is judged in a
batch as it is judged alone (`Decoder.rejects`): an accepted one adds its values
(`consume_of_accepted`), a rejected one leaves the collectors as they were if it is skipped
(`consume_of_rejected`). -/

namespace WireColumns

/-- Whether a computation has failed. -/
def isFailure {ε σ α : Type} : EStateM.Result ε σ α → Bool
  | .ok .. => false
  | .error .. => true

theorem Agree.isFailure_eq {ε σ τ : Type} {R : σ → τ → Prop} {x : EStateM.Result ε σ Unit}
    {y : EStateM.Result ε τ Unit} (H : Agree R x y) : isFailure x = isFailure y := by
  cases H <;> rfl

namespace Collector

theorem dispatchMessage_nil (messageSetItems : Bool) (index : Int) (cs : Array Collector) :
    dispatchMessage messageSetItems [] index cs = .ok () cs := by
  have hwalk : Walk.ofMessage [] = ⟨[], .complete⟩ := by
    rw [Walk.ofMessage, Walk.walkFrom]
    rfl
  unfold dispatchMessage
  rw [hwalk]
  rfl

/-- Cutting all collectors back undoes what was added under a new index. -/
theorem truncateAll_addAll {cs : Array Collector} {index : Int} (h : ∀ c ∈ cs, c.IsNew index)
    (vs : UInt32 → FieldKind → List Value) :
    truncateAll (addAll vs index cs) (sizes cs) = cs := by
  refine Array.ext (by simp [truncateAll, addAll]) fun i hi hi' => ?_
  have hsize : (sizes cs)[i]? = some cs[i].size := by
    simp [sizes, Array.getElem?_eq_getElem hi']
  simp only [truncateAll, addAll, Array.getElem_mapIdx, Array.getElem_map, hsize]
  exact truncate_commitAll (h _ (Array.getElem_mem hi')) _

end Collector

namespace Decoder

open Collector

/-- The decoder with another policy. -/
def withPolicy (d : Decoder) (policy : CorruptPolicy) : Decoder :=
  { d with options := { d.options with onCorrupt := policy } }

/-- Whether a message makes a batch of its own fail if corrupt messages are not skipped. -/
def rejects (d : Decoder) (message : Bytes) : Bool :=
  !((d.withPolicy .fail).decode [message]).isOk

/-- A session of a decoder: its collectors are those of the requested fields, and the parents of
their values are messages already seen. -/
structure Fits (d : Decoder) (s : Session) : Prop where
  same : SameFields s.collectors d.start.collectors
  below : ∀ c ∈ s.collectors, c.Below s.messageCount

/-- The result of dispatching the next message. -/
def dispatched (d : Decoder) (s : Session) (message : Bytes) :
    EStateM.Result Corruption (Array Collector) Unit :=
  dispatchMessage d.options.messageSetItems message s.messageCount s.collectors

/-! ## Policies -/

variable {d : Decoder} {s : Session}

theorem consume_fail (h : d.options.onCorrupt = .fail) (message : Bytes) :
    d.consume s message =
      match d.dispatched s message with
      | .ok _ cs => .ok ⟨cs, s.messageCount + 1, s.corruptCount⟩
      | .error e _ => .error e := by
  simp only [consume, h]
  rfl

theorem consume_skip (h : d.options.onCorrupt = .skip) (message : Bytes) :
    d.consume s message =
      match d.dispatched s message with
      | .ok _ cs => .ok ⟨cs, s.messageCount + 1, s.corruptCount⟩
      | .error _ cs =>
        .ok ⟨truncateAll cs (sizes s.collectors), s.messageCount + 1, s.corruptCount + 1⟩ := by
  unfold dispatched
  cases hx : dispatchMessage d.options.messageSetItems message s.messageCount s.collectors with
  | ok _ cs =>
    simp only [consume, h, dispatchOrDrop, hx]
    rfl
  | error e cs =>
    simp only [consume, h, dispatchOrDrop, hx]
    rfl

theorem of_foldlM_cons {message : Bytes} {messages : List Bytes} {s' : Session}
    (h : (message :: messages).foldlM d.consume s = .ok s') :
    ∃ s₁, d.consume s message = .ok s₁ ∧ messages.foldlM d.consume s₁ = .ok s' := by
  rw [List.foldlM_cons] at h
  cases hstep : d.consume s message with
  | error e =>
    rw [hstep] at h
    cases h
  | ok s₁ =>
    rw [hstep] at h
    exact ⟨s₁, rfl, h⟩

/-- A batch is what is left of a session behind all messages. -/
theorem exists_foldlM_of_decode {messages : List Bytes} {batch : Batch}
    (h : d.decode messages = .ok batch) :
    ∃ s, messages.foldlM d.consume d.start = .ok s ∧ batch = d.finish s := by
  rw [decode] at h
  cases hrun : messages.foldlM d.consume d.start with
  | error e =>
    rw [hrun] at h
    cases h
  | ok s =>
    rw [hrun] at h
    exact ⟨s, rfl, (Except.ok.inj h).symm⟩

theorem decode_one (d : Decoder) (message : Bytes) :
    d.decode [message] =
      match d.consume d.start message with
      | .ok s => .ok (d.finish s)
      | .error e => .error (.corrupt e) := by
  have hfold : [message].foldlM d.consume d.start = d.consume d.start message := bind_pure _
  cases hstep : d.consume d.start message with
  | ok s => rw [decode, hfold, hstep]
  | error e => rw [decode, hfold, hstep]

theorem rejects_eq (d : Decoder) (message : Bytes) :
    d.rejects message = isFailure (d.dispatched d.start message) := by
  have hconsume := consume_fail (d := d.withPolicy .fail) (s := d.start) rfl message
  have hdispatched : (d.withPolicy .fail).dispatched d.start message =
    d.dispatched d.start message := rfl
  have hstart : (d.withPolicy .fail).start = d.start := rfl
  rw [hdispatched] at hconsume
  rw [rejects, decode_one, hstart, hconsume]
  cases d.dispatched d.start message <;> rfl

/-! ## The start -/

theorem numbers_start (d : Decoder) :
    numbers d.start.collectors = d.requests.map (·.spec.number) := by
  simp [numbers, start, ofSpec]

theorem mem_start_collectors {fields : List FieldSpec} {options : DecodeOptions}
    (h : ofFields fields options = .ok d) {c : Collector} :
    c ∈ d.start.collectors ↔ ∃ spec ∈ fields, ofSpec spec = c := by
  have hstart : c ∈ d.start.collectors ↔ ∃ r ∈ d.requests, ofSpec r.spec = c := by simp [start]
  rw [hstart]
  constructor
  · rintro ⟨r, hr, rfl⟩
    exact ⟨r.spec, spec_mem_of_ofFields h hr, rfl⟩
  · rintro ⟨spec, hspec, rfl⟩
    obtain ⟨i, hi⟩ := List.mem_iff_getElem?.1 hspec
    exact ⟨_, mem_requests_of_ofFields h hi, rfl⟩

theorem Valid.fits_start (hd : d.Valid) : d.Fits d.start := by
  refine ⟨⟨rfl, ?_⟩, fun c hc => ?_⟩
  · rw [numbers_start]
    exact hd.ascending.imp fun h => UInt32.ne_of_lt h
  · have : c.entries = #[] := by
      obtain ⟨r, -, rfl⟩ : ∃ r ∈ d.requests, ofSpec r.spec = c := by simpa [start] using hc
      rfl
    simp [Below, this]

/-! ## One message -/

theorem Fits.numbers_eq (hs : d.Fits s) :
    numbers s.collectors = d.requests.map (·.spec.number) := by
  rw [← numbers_clearAll, hs.same.clearAll_eq, numbers_clearAll, numbers_start]

theorem Fits.isNew (hs : d.Fits s) : ∀ c ∈ s.collectors, c.IsNew s.messageCount :=
  fun c hc => (hs.below c hc).isNew

theorem Fits.dispatched_eq (hs : d.Fits s) (hd : d.Valid) (message : Bytes) :
    d.dispatched s message =
      lookupMessage d.options.messageSetItems message s.messageCount s.collectors := by
  refine dispatchMessage_of_pairwise ?_ ..
  rw [hs.numbers_eq]
  exact hd.ascending

/-- A message is judged in a batch as it is judged alone. -/
theorem Fits.isFailure_dispatched (hs : d.Fits s) (hd : d.Valid) (message : Bytes) :
    isFailure (d.dispatched s message) = d.rejects message := by
  rw [rejects_eq, hs.dispatched_eq hd, hd.fits_start.dispatched_eq hd]
  exact (lookupMessage_agree hs.same.sameKinds ..).isFailure_eq

/-- A decoder that fails on corrupt messages rejects none of those that it decodes. -/
theorem Fits.rejects_eq_false (hs : d.Fits s) (hd : d.Valid) (hp : d.options.onCorrupt = .fail)
    {message : Bytes} {s' : Session} (h : d.consume s message = .ok s') :
    d.rejects message = false := by
  rw [← hs.isFailure_dispatched hd]
  rw [consume_fail hp] at h
  cases hdispatched : d.dispatched s message with
  | ok => rfl
  | error =>
    rw [hdispatched] at h
    cases h

theorem Fits.exists_addAll (hs : d.Fits s) (hd : d.Valid) (message : Bytes) :
    ∃ vs, finalState (d.dispatched s message) = addAll vs s.messageCount s.collectors := by
  rw [hs.dispatched_eq hd]
  exact exists_addAll_lookupMessage hs.same.nodup ..

/-- Adding values under the index of the next message gives a session again. -/
theorem Fits.addAll (hs : d.Fits s) (vs : UInt32 → FieldKind → List Value) (k : Nat) :
    d.Fits ⟨addAll vs s.messageCount s.collectors, s.messageCount + 1, k⟩ := by
  refine ⟨⟨(clearAll_addAll ..).trans hs.same.clearAll_eq, ?_⟩, fun c hc => ?_⟩
  · rw [numbers_addAll]
    exact hs.same.nodup
  · obtain ⟨c, hc', rfl⟩ := Array.mem_map.1 hc
    exact (hs.below c hc').commitAll _

theorem consume_of_accepted (hd : d.Valid) (hs : d.Fits s) {message : Bytes}
    (h : d.rejects message = false) :
    d.consume s message =
      .ok ⟨finalState (d.dispatched s message), s.messageCount + 1, s.corruptCount⟩ := by
  rw [← hs.isFailure_dispatched hd] at h
  cases hp : d.options.onCorrupt with
  | fail =>
    rw [consume_fail hp]
    generalize d.dispatched s message = x at h
    cases x with
    | ok _ cs => rfl
    | error e cs => exact absurd h (by simp [isFailure])
  | skip =>
    rw [consume_skip hp]
    generalize d.dispatched s message = x at h
    cases x with
    | ok _ cs => rfl
    | error e cs => exact absurd h (by simp [isFailure])

theorem consume_of_rejected (hd : d.Valid) (hs : d.Fits s) (hp : d.options.onCorrupt = .skip)
    {message : Bytes} (h : d.rejects message = true) :
    d.consume s message = .ok ⟨s.collectors, s.messageCount + 1, s.corruptCount + 1⟩ := by
  rw [← hs.isFailure_dispatched hd] at h
  obtain ⟨vs, hvs⟩ := hs.exists_addAll hd message
  rw [consume_skip hp]
  generalize d.dispatched s message = x at h hvs
  cases x with
  | ok _ cs => exact absurd h (by simp [isFailure])
  | error e cs =>
    obtain rfl : cs = Collector.addAll vs s.messageCount s.collectors := hvs
    dsimp only
    rw [truncateAll_addAll hs.isNew]

/-- A message without any occurrence is accepted and adds nothing. -/
theorem consume_nil (d : Decoder) (s : Session) :
    d.consume s [] = .ok ⟨s.collectors, s.messageCount + 1, s.corruptCount⟩ := by
  have h : d.dispatched s [] = .ok () s.collectors := dispatchMessage_nil ..
  cases hp : d.options.onCorrupt with
  | fail => rw [consume_fail hp, h]
  | skip => rw [consume_skip hp, h]

end Decoder

end WireColumns
