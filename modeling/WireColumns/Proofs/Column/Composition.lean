import WireColumns.Proofs.Column.Acceptance

/-! # Batches one behind the other

Decoding the messages of two batches in one gives the columns of the first followed by those of the
second, whose parents are moved up by the number of messages of the first
(`Decoder.decode_batch_append`). A session behind another is the two put together
(`Decoder.Session.append`): each message does the same in both (`Decoder.adds_or_refused`), and no
value of the first is looked at again, since its parents are all below the index of the message
(`Collector.append_commitAll`). -/

namespace WireColumns

/-- A column followed by another one, whose parents are moved up by `n`. -/
def Column.append (n : Nat) (c c' : Column) : Column :=
  { c with
    values := c.values ++ c'.values
    parents := c.parents ++ c'.parents.map ((n : Int) + ·) }

/-- The batch of the messages of the first batch followed by those of the second. -/
def Batch.append (b b' : Batch) : Batch :=
  { numbers := b.numbers
    columns := List.zipWith (Column.append b.messageCount) b.columns b'.columns
    messageCount := b.messageCount + b'.messageCount
    corruptCount := b.corruptCount + b'.corruptCount }

namespace Collector

/-- A collector with what another one of its field has found, the parents moved up by `n`. -/
def append (n : Nat) (c c' : Collector) : Collector :=
  { c with entries := c.entries ++ c'.entries.map fun e => (e.1, (n : Int) + e.2) }

variable {c c' : Collector} {n k : Nat}

theorem append_ofSpec (n : Nat) (c : Collector) (spec : FieldSpec) :
    c.append n (ofSpec spec) = c := by
  rw [append, ofSpec, Array.map_empty, Array.append_empty]

theorem toColumn_append (n : Nat) (c c' : Collector) (ownership : Ownership) :
    (c.append n c').toColumn ownership =
      Column.append n (c.toColumn ownership) (c'.toColumn ownership) := by
  simp [append, toColumn, Column.append, Function.comp_def]

theorem Below.append (h : c.Below n) (h' : c'.Below k) : (c.append n c').Below ↑(n + k) := by
  intro e he
  rw [Collector.append, Array.toList_append, Array.toList_map, List.mem_append, List.mem_map] at he
  rcases he with he | ⟨e, he, rfl⟩
  · have := h e he
    omega
  · have := h' e he
    dsimp only
    omega

/-- Values are added behind those of another collector as they are added without it. -/
theorem append_commitAll (h : c.Below n) (h' : c'.Below k) (hrepeated : c'.repeated = c.repeated)
    (values : List Value) :
    (c.append n c').commitAll values ↑(n + k) = c.append n (c'.commitAll values k) := by
  rw [commitAll_of_isNew (h.append h').isNew, commitAll_of_isNew h'.isNew, hrepeated]
  simp [Collector.append, Function.comp_def]

end Collector

namespace Decoder

open Collector

variable {d : Decoder} {s s' t : Session} {messages : List Bytes}

/-- The session of one batch with that of another one behind it. -/
def Session.append (s t : Session) : Session :=
  { collectors := Array.zipWith (Collector.append s.messageCount) s.collectors t.collectors
    messageCount := s.messageCount + t.messageCount
    corruptCount := s.corruptCount + t.corruptCount }

/-! ## Sessions put together -/

theorem Fits.clear_eq (hs : d.Fits s) (ht : d.Fits t) {i : Nat} (hi : i < s.collectors.size)
    (hi' : i < t.collectors.size) : t.collectors[i].clear = s.collectors[i].clear := by
  have hclear : clearAll t.collectors = clearAll s.collectors :=
    ht.same.clearAll_eq.trans hs.same.clearAll_eq.symm
  simpa [clearAll, hi, hi'] using congrArg (·[i]?) hclear

theorem Fits.size_eq (hs : d.Fits s) : s.collectors.size = d.requests.length := by
  have hsize := congrArg Array.size hs.same.clearAll_eq
  simpa [clearAll, start] using hsize

theorem Fits.append (hs : d.Fits s) (ht : d.Fits t) : d.Fits (s.append t) := by
  have hclear : clearAll (s.append t).collectors = clearAll s.collectors := by
    refine Array.ext ?_ fun i hi hi' => ?_
    · simp [clearAll, Session.append, hs.size_eq, ht.size_eq]
    · simp [clearAll, Session.append, Collector.append, clear]
  refine ⟨⟨hclear.trans hs.same.clearAll_eq, ?_⟩, fun c hc => ?_⟩
  · rw [← numbers_clearAll, hclear, numbers_clearAll]
    exact hs.same.nodup
  · obtain ⟨i, hi, rfl⟩ := Array.mem_iff_getElem.1 hc
    simp only [Session.append, Array.getElem_zipWith]
    exact (hs.below _ (Array.getElem_mem _)).append (ht.below _ (Array.getElem_mem _))

theorem Fits.append_start (hs : d.Fits s) : s.append d.start = s := by
  have hcollectors : (s.append d.start).collectors = s.collectors := by
    refine Array.ext ?_ fun i hi hi' => ?_
    · simp [Session.append, hs.size_eq, start]
    · simp only [Session.append, start, Array.getElem_zipWith, List.getElem_toArray,
        List.getElem_map]
      exact append_ofSpec ..
  exact congrArg (fun cs => Session.mk cs s.messageCount s.corruptCount) hcollectors

/-- Values are added to a session behind another one as they are added to it alone. -/
theorem Fits.addAll_append (hs : d.Fits s) (ht : d.Fits t)
    (values : UInt32 → FieldKind → List Value) :
    Collector.addAll values ↑(s.messageCount + t.messageCount) (s.append t).collectors =
      Array.zipWith (Collector.append s.messageCount) s.collectors
        (Collector.addAll values t.messageCount t.collectors) := by
  refine Array.ext (by simp [Collector.addAll, Session.append]) fun i hi hi' => ?_
  have hi : i < s.collectors.size ∧ i < t.collectors.size := by
    simpa [Collector.addAll, Session.append] using hi
  have hclear := hs.clear_eq ht hi.1 hi.2
  simp only [clear, Collector.mk.injEq] at hclear
  obtain ⟨hnumber, hkind, hrepeated, -⟩ := hclear
  simp only [Collector.addAll, Session.append, Array.getElem_map, Array.getElem_zipWith, hnumber,
    hkind]
  exact append_commitAll (hs.below _ (Array.getElem_mem hi.1)) (ht.below _ (Array.getElem_mem hi.2))
    hrepeated _

/-! ## Messages behind a session -/

theorem consume_append (hd : d.Valid) (hs : d.Fits s) (ht : d.Fits t) (m : Bytes) :
    d.consume (s.append t) m = s.append <$> d.consume t m := by
  rcases adds_or_refused hd m with ⟨values, hadds⟩ | ⟨e, hrefused⟩
  · rw [hadds _ (hs.append ht), hadds t ht]
    exact congrArg (fun cs => Except.ok (Session.mk cs _ _)) (hs.addAll_append ht values)
  · rw [hrefused _ (hs.append ht), hrefused t ht]
    unfold refuse
    cases d.options.onCorrupt <;> rfl

theorem foldlM_consume_append (hd : d.Valid) (hs : d.Fits s) (ht : d.Fits t)
    (messages : List Bytes) :
    messages.foldlM d.consume (s.append t) = s.append <$> messages.foldlM d.consume t := by
  induction messages generalizing t with
  | nil => rfl
  | cons m messages ih =>
    rw [List.foldlM_cons, List.foldlM_cons, consume_append hd hs ht]
    cases hstep : d.consume t m with
    | error e => rfl
    | ok t' => exact ih (ht.consume hd hstep)

theorem messageCount_of_consume {m : Bytes} (h : d.consume s m = .ok s') :
    s'.messageCount = s.messageCount + 1 := by
  cases hp : d.options.onCorrupt with
  | fail =>
    rw [consume_fail hp] at h
    cases hdispatched : d.dispatched s m <;> rw [hdispatched] at h <;> cases h
    rfl
  | skip =>
    rw [consume_skip hp] at h
    cases hdispatched : d.dispatched s m <;> rw [hdispatched] at h <;> cases h <;> rfl

theorem Fits.foldlM (hs : d.Fits s) (hd : d.Valid) (h : messages.foldlM d.consume s = .ok s') :
    d.Fits s' ∧ s'.messageCount = s.messageCount + messages.length := by
  induction messages generalizing s with
  | nil =>
    cases h
    exact ⟨hs, rfl⟩
  | cons m messages ih =>
    obtain ⟨s₁, hstep, hrest⟩ := of_foldlM_cons h
    obtain ⟨hfits, hcount⟩ := ih (hs.consume hd hstep) hrest
    refine ⟨hfits, ?_⟩
    rw [hcount, messageCount_of_consume hstep, List.length_cons]
    omega

/-! ## Batches -/

theorem finish_append (hd : d.Valid) (hs : d.Fits s) (ht : d.Fits t) :
    d.finish (s.append t) = (d.finish s).append (d.finish t) := by
  have hcolumns : (s.append t).collectors.toList.map (·.toColumn d.options.ownership) =
      List.zipWith (Column.append s.messageCount)
        (s.collectors.toList.map (·.toColumn d.options.ownership))
        (t.collectors.toList.map (·.toColumn d.options.ownership)) := by
    rw [Session.append, Array.toList_zipWith, List.map_zipWith, List.zipWith_map]
    simp only [toColumn_append]
  rw [finish, hcolumns, inOutputOrder_zipWith hd]
  · rfl
  · rw [List.length_map, Array.length_toList, hs.size_eq]
  · rw [List.length_map, Array.length_toList, ht.size_eq]

/-- Batches compose: behind messages that are decoded, further ones are decoded just as they are
alone, and their columns come behind those of the first messages. -/
theorem decode_batch_append {fields : List FieldSpec} {options : DecodeOptions}
    (hd : ofFields fields options = .ok d) {batch : Batch} (h : d.decode messages = .ok batch)
    (more : List Bytes) :
    d.decode (messages ++ more) = batch.append <$> d.decode more ∧
      batch.messageCount = messages.length ∧
      ∀ batch', d.decode more = .ok batch' →
        batch'.numbers = batch.numbers ∧ batch'.columns.length = batch.columns.length := by
  have hvalid := valid_of_ofFields hd
  obtain ⟨s, hs, rfl⟩ := exists_foldlM_of_decode h
  obtain ⟨hfits, hcount⟩ := hvalid.fits_start.foldlM hvalid hs
  refine ⟨?_, hcount.trans (Nat.zero_add _), ?_⟩
  · have hmore := foldlM_consume_append hvalid hfits hvalid.fits_start more
    rw [hfits.append_start] at hmore
    have hrun : (messages ++ more).foldlM d.consume d.start = more.foldlM d.consume s := by
      rw [List.foldlM_append, hs]
      rfl
    rw [decode, decode, hrun, hmore]
    cases hrest : more.foldlM d.consume d.start with
    | error e => rfl
    | ok t =>
      have ht := (hvalid.fits_start.foldlM hvalid hrest).1
      exact congrArg Except.ok (finish_append hvalid hfits ht)
  · intro batch' hbatch'
    obtain ⟨t, ht, rfl⟩ := exists_foldlM_of_decode hbatch'
    have hfits' := (hvalid.fits_start.foldlM hvalid ht).1
    refine ⟨rfl, ?_⟩
    simp only [finish]
    rw [length_inOutputOrder, length_inOutputOrder]
    · rw [List.length_map, Array.length_toList, hfits.size_eq]
    · rw [List.length_map, Array.length_toList, hfits'.size_eq]

/-- The second batch continues the column of the first behind two messages, the later of which is
skipped; so is the last message of the second batch. -/
theorem decode_batch_append_skip :
    ofFields [⟨1, .int32, false, none, none⟩] { onCorrupt := .skip } =
        .ok ⟨[⟨⟨1, .int32, false, none, none⟩, 0⟩], { onCorrupt := .skip }⟩ ∧
      decode ⟨[⟨⟨1, .int32, false, none, none⟩, 0⟩], { onCorrupt := .skip }⟩ [[8, 5], [8, 255]] =
        .ok ⟨[1], [⟨.int32, .borrowed, [.int32 5], [0]⟩], 2, 1⟩ ∧
      decode ⟨[⟨⟨1, .int32, false, none, none⟩, 0⟩], { onCorrupt := .skip }⟩
          [[8, 5], [8, 255], [8, 6, 8, 7], [8]] =
        .ok ⟨[1], [⟨.int32, .borrowed, [.int32 5, .int32 7], [0, 2]⟩], 4, 2⟩ := by
  have hfields : ofFields [⟨1, .int32, false, none, none⟩] { onCorrupt := .skip } =
      .ok ⟨[⟨⟨1, .int32, false, none, none⟩, 0⟩], { onCorrupt := .skip }⟩ := by cbv
  have hfirst :
      decode ⟨[⟨⟨1, .int32, false, none, none⟩, 0⟩], { onCorrupt := .skip }⟩ [[8, 5], [8, 255]] =
        .ok ⟨[1], [⟨.int32, .borrowed, [.int32 5], [0]⟩], 2, 1⟩ := by cbv
  have hmore :
      decode ⟨[⟨⟨1, .int32, false, none, none⟩, 0⟩], { onCorrupt := .skip }⟩ [[8, 6, 8, 7], [8]] =
        .ok ⟨[1], [⟨.int32, .borrowed, [.int32 7], [0]⟩], 2, 1⟩ := by cbv
  have happend := (decode_batch_append hfields hfirst [[8, 6, 8, 7], [8]]).1
  rw [hmore] at happend
  exact ⟨hfields, hfirst, happend⟩

end Decoder

end WireColumns
