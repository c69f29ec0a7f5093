import WireColumns.Proofs.Column.Contribution
import WireColumns.Proofs.Column.Session

/-! # Columns of a batch

What each message of a batch adds makes up the columns (`Decoder.decode_adds`): under the index of a
message come the values it adds for the field, all of them or the last one. A message whose
occurrences are all accepted adds the values of these (`Decoder.adds_of_accepted`). -/

namespace WireColumns

/-- A column of values that all have the same parent. -/
def Column.ofParent (type : ValueType) (ownership : Ownership) (parent : Int)
    (values : List Value) : Column :=
  ⟨type, ownership, values, values.map fun _ => parent⟩

/-- The entries of a column for messages that have the given values, where the first message has
the given index. -/
def entriesFrom (repeated : Bool) (first : Nat) (messages : List (List Value)) :
    List (Value × Int) :=
  (messages.zipIdx first).flatMap fun (values, index) =>
    (keptValues repeated values).map (·, (index : Int))

theorem entriesFrom_cons (repeated : Bool) (first : Nat) (values : List Value)
    (rest : List (List Value)) :
    entriesFrom repeated first (values :: rest) =
      (keptValues repeated values).map (·, (first : Int)) ++
        entriesFrom repeated (first + 1) rest := by
  rw [entriesFrom, List.zipIdx_cons, List.flatMap_cons]
  rfl

namespace Collector

/-- The collector after messages that have the given values for it. -/
def gather (first : Nat) (messages : List (List Value)) (c : Collector) : Collector :=
  { c with entries := c.entries ++ (entriesFrom c.repeated first messages).toArray }

theorem gather_nil (first : Nat) (c : Collector) : c.gather first [] = c :=
  congrArg (fun entries => { c with entries }) (Array.append_empty)

theorem map_gather_nil (first : Nat) (cs : Array Collector) :
    cs.map (fun c => c.gather first []) = cs :=
  (Array.map_congr_left fun c _ => gather_nil first c).trans (Array.map_id _)

theorem gather_cons {c : Collector} {first : Nat} (h : c.IsNew first) (values : List Value)
    (rest : List (List Value)) :
    (c.commitAll values first).gather (first + 1) rest = c.gather first (values :: rest) := by
  have hentries : c.entries ++ ((keptValues c.repeated values).map (·, (first : Int))).toArray ++
        (entriesFrom c.repeated (first + 1) rest).toArray =
      c.entries ++ (entriesFrom c.repeated first (values :: rest)).toArray := by
    rw [entriesFrom_cons, Array.append_assoc]
    exact congrArg (c.entries ++ ·) (List.append_toArray ..)
  rw [commitAll_of_isNew h]
  exact congrArg (fun entries => { c with entries }) hentries

/-- The column of a single message that has the given values. -/
theorem toColumn_gather_singleton (spec : FieldSpec) (values : List Value) (ownership : Ownership) :
    ((ofSpec spec).gather 0 [values]).toColumn ownership =
      .ofParent spec.kind.valueType ownership 0 (keptValues spec.repeated values) := by
  have hentries : entriesFrom spec.repeated 0 [values] =
      (keptValues spec.repeated values).map (·, 0) := by
    simp [entriesFrom]
  simp [gather, ofSpec, toColumn, hentries, Column.ofParent, Function.comp_def]

end Collector

namespace Decoder

open Collector

variable {d : Decoder} {s : Session}

/-- Wherever it stands in a batch, the message is accepted and adds the given values. -/
def Adds (d : Decoder) (message : Bytes) (values : UInt32 → FieldKind → List Value) : Prop :=
  ∀ s, d.Fits s → d.consume s message =
    .ok ⟨addAll values s.messageCount s.collectors, s.messageCount + 1, s.corruptCount⟩

/-! ## One message -/

/-- What the next message adds is gathered in front of what comes behind it. -/
theorem Fits.map_gather_addAll (hs : d.Fits s) (values : UInt32 → FieldKind → List Value)
    (rest : UInt32 → FieldKind → List (List Value)) :
    (Collector.addAll values s.messageCount s.collectors).map
        (fun c => c.gather (s.messageCount + 1) (rest c.number c.kind)) =
      s.collectors.map fun c =>
        c.gather s.messageCount (values c.number c.kind :: rest c.number c.kind) := by
  rw [Collector.addAll, Array.map_map]
  refine Array.map_congr_left fun c hc => ?_
  simp only [Function.comp_apply, commitAll_number, commitAll_kind]
  exact gather_cons (hs.isNew c hc) ..

theorem Fits.refusal?_eq (hs : d.Fits s) (messageSetItems : Bool) (f : Field) :
    f.refusal? messageSetItems s.collectors = f.refusal? messageSetItems d.start.collectors :=
  fieldRefusal?_congr hs.same.sameKinds.kinds_eq messageSetItems f

theorem consume_of_dispatched {message : Bytes} {cs : Array Collector}
    (h : d.dispatched s message = .ok () cs) :
    d.consume s message = .ok ⟨cs, s.messageCount + 1, s.corruptCount⟩ := by
  cases hp : d.options.onCorrupt with
  | fail => rw [consume_fail hp, h]
  | skip => rw [consume_skip hp, h]

theorem dispatched_of_walk (hd : d.Valid) (hs : d.Fits s) {message : Bytes} {walk : Walk}
    (hwalk : (Walk.ofMessage message).untilEndGroup = walk) :
    d.dispatched s message =
      walk.visit (lookup d.options.messageSetItems s.messageCount) s.collectors := by
  rw [hs.dispatched_eq hd, lookupMessage, hwalk]

theorem adds_of_accepted (hd : d.Valid) {message : Bytes} {fields : List Field}
    (hwalk : (Walk.ofMessage message).untilEndGroup = ⟨fields, .complete⟩)
    (h : ∀ f ∈ fields, f.refusal? d.options.messageSetItems d.start.collectors = none) :
    d.Adds message fun n k => fields.flatMap (Field.valuesFor d.options.messageSetItems n k) := by
  intro s hs
  apply consume_of_dispatched
  rw [dispatched_of_walk hd hs hwalk]
  apply visit_accepted hs.same.nodup
  intro f hf
  rw [hs.refusal?_eq]
  exact h f hf

/-- What becomes of a session at a corrupt message. -/
def refuse (d : Decoder) (s : Session) (e : Corruption) : Except Corruption Session :=
  match d.options.onCorrupt with
  | .fail => .error e
  | .skip => .ok ⟨s.collectors, s.messageCount + 1, s.corruptCount + 1⟩

/-- A message that dispatch fails at is refused, and leaves nothing behind. -/
theorem consume_of_dispatched_error (hd : d.Valid) (hs : d.Fits s) {message : Bytes}
    {e : Corruption} {cs : Array Collector} (h : d.dispatched s message = .error e cs) :
    d.consume s message = d.refuse s e := by
  cases hp : d.options.onCorrupt with
  | fail => rw [consume_fail hp, h, refuse, hp]
  | skip =>
    obtain ⟨vs, hvs⟩ := hs.exists_addAll hd message
    rw [h] at hvs
    obtain rfl : cs = addAll vs s.messageCount s.collectors := hvs
    rw [consume_skip hp, h, refuse, hp]
    dsimp only
    rw [truncateAll_addAll hs.isNew]

theorem consume_of_refused (hd : d.Valid) (hs : d.Fits s) {message : Bytes} {fields : List Field}
    {ending : Ending} (hwalk : (Walk.ofMessage message).untilEndGroup = ⟨fields, ending⟩)
    {e : Corruption}
    (h : fields.findSome? (Field.refusal? d.options.messageSetItems d.start.collectors) = some e) :
    d.consume s message = d.refuse s e := by
  have hsame : Field.refusal? d.options.messageSetItems s.collectors =
      Field.refusal? d.options.messageSetItems d.start.collectors :=
    funext fun f => hs.refusal?_eq _ f
  rw [← hsame] at h
  obtain ⟨vs, hvs⟩ := exists_visit_refused hs.same.nodup h ending s.messageCount
  rw [← dispatched_of_walk hd hs hwalk] at hvs
  exact consume_of_dispatched_error hd hs hvs

/-- A message of which no occurrence is refused, but which does not end properly. -/
theorem consume_of_malformed (hd : d.Valid) (hs : d.Fits s) {message : Bytes} {fields : List Field}
    {e : Corruption} (hwalk : (Walk.ofMessage message).untilEndGroup = ⟨fields, .malformed e⟩)
    (h : ∀ f ∈ fields, f.refusal? d.options.messageSetItems d.start.collectors = none) :
    d.consume s message = d.refuse s e := by
  have hfields : ∀ f ∈ fields, f.refusal? d.options.messageSetItems s.collectors = none := by
    intro f hf
    rw [hs.refusal?_eq]
    exact h f hf
  have hvisit := Walk.visit_append fields [] (.malformed e)
    (lookup d.options.messageSetItems s.messageCount)
  rw [List.append_nil] at hvisit
  have hdispatched := dispatched_of_walk hd hs hwalk
  rw [hvisit] at hdispatched
  simp only [bind, EStateM.bind] at hdispatched
  rw [visit_accepted hs.same.nodup hfields] at hdispatched
  exact consume_of_dispatched_error hd hs hdispatched

/-! ## A batch -/

theorem Fits.consume (hs : d.Fits s) (hd : d.Valid) {message : Bytes} {s' : Session}
    (h : d.consume s message = .ok s') : d.Fits s' := by
  obtain ⟨vs, hvs⟩ := hs.exists_addAll hd message
  have hnone := hs.addAll (fun _ _ => []) (s.corruptCount + 1)
  rw [addAll_nil] at hnone
  cases hr : d.rejects message with
  | false =>
    rw [consume_of_accepted hd hs hr, hvs] at h
    cases h
    exact hs.addAll vs _
  | true =>
    cases hp : d.options.onCorrupt with
    | skip =>
      rw [consume_of_rejected hd hs hp hr] at h
      cases h
      exact hnone
    | fail => cases hr.symm.trans (hs.rejects_eq_false hd hp h)

/-- Messages that do the same in every session make up the same batch. -/
theorem decode_congr (hd : d.Valid) {messages messages' : List Bytes}
    (h : List.Forall₂ (fun m m' => ∀ s, d.Fits s → d.consume s m = d.consume s m')
      messages messages') : d.decode messages = d.decode messages' := by
  have hrun : ∀ s, d.Fits s → messages.foldlM d.consume s = messages'.foldlM d.consume s := by
    induction h with
    | nil => exact fun s _ => rfl
    | @cons m m' messages messages' hm _ ih =>
      intro s hs
      rw [List.foldlM_cons, List.foldlM_cons, ← hm s hs]
      cases hstep : d.consume s m with
      | error e => rfl
      | ok s' => exact ih s' (hs.consume hd hstep)
  rw [decode, decode, hrun d.start hd.fits_start]

section

variable {α : Type} {message : α → Bytes} {values : α → UInt32 → FieldKind → List Value}
variable {xs : List α}

theorem foldlM_adds (hs : d.Fits s) (h : ∀ x ∈ xs, d.Adds (message x) (values x)) :
    (xs.map message).foldlM d.consume s =
      .ok ⟨s.collectors.map fun c =>
          c.gather s.messageCount (xs.map fun x => values x c.number c.kind),
        s.messageCount + xs.length, s.corruptCount⟩ := by
  induction xs generalizing s with
  | nil =>
    simp only [List.map_nil, map_gather_nil]
    rfl
  | cons x xs ih =>
    rw [List.forall_mem_cons] at h
    rw [List.map_cons, List.foldlM_cons, h.1 s hs]
    change (xs.map message).foldlM d.consume _ = _
    rw [ih (hs.addAll (values x) s.corruptCount) h.2]
    dsimp only
    rw [hs.map_gather_addAll (values x) fun n k => xs.map fun x => values x n k, List.length_cons,
      Nat.add_right_comm, Nat.add_assoc]
    rfl

/-- The columns of messages that are all accepted. -/
theorem decode_adds {fields : List FieldSpec} {options : DecodeOptions}
    (hd : ofFields fields options = .ok d) (h : ∀ x ∈ xs, d.Adds (message x) (values x)) :
    ∃ batch, d.decode (xs.map message) = .ok batch ∧
      batch.messageCount = xs.length ∧ batch.corruptCount = 0 ∧
      ∀ (i : Nat) (spec : FieldSpec), fields[i]? = some spec →
        batch.columns[spec.output?.getD i]? = some
          (((ofSpec spec).gather 0 (xs.map fun x => values x spec.number spec.kind)).toColumn
            options.ownership) := by
  have hvalid := valid_of_ofFields hd
  have hoptions := options_of_ofFields hd
  refine ⟨_, by rw [decode, foldlM_adds hvalid.fits_start h], Nat.zero_add _, rfl, ?_⟩
  intro i spec hspec
  have hcolumns : (d.start.collectors.map fun c =>
        c.gather 0 (xs.map fun x => values x c.number c.kind)).toList.map
        (fun c => c.toColumn d.options.ownership) = d.requests.map fun r =>
          ((ofSpec r.spec).gather 0 (xs.map fun x => values x r.spec.number r.spec.kind)).toColumn
            options.ownership := by
    rw [hoptions]
    simp [start, ofSpec]
  change (d.inOutputOrder ((d.start.collectors.map fun c =>
    c.gather 0 (xs.map fun x => values x c.number c.kind)).toList.map
      fun c => c.toColumn d.options.ownership))[_]? = _
  rw [hcolumns, getElem?_inOutputOrder_map hd hspec]

end

/-- The columns of a single message that is accepted. -/
theorem decode_singleton {fields : List FieldSpec} {options : DecodeOptions}
    (hd : ofFields fields options = .ok d) {message : Bytes}
    {values : UInt32 → FieldKind → List Value} (h : d.Adds message values) :
    ∃ batch, d.decode [message] = .ok batch ∧
      ∀ (i : Nat) (spec : FieldSpec), fields[i]? = some spec →
        batch.columns[spec.output?.getD i]? = some
          (((ofSpec spec).gather 0 [values spec.number spec.kind]).toColumn options.ownership) := by
  have hall : ∀ x ∈ [message], d.Adds (id x) ((fun _ => values) x) :=
    List.forall_mem_singleton.2 h
  obtain ⟨batch, hbatch, -, -, hcolumns⟩ := decode_adds hd hall
  exact ⟨batch, hbatch, hcolumns⟩

end Decoder

end WireColumns
