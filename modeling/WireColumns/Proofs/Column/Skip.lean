import WireColumns.Proofs.Column.Session

/-! # Skipping corrupt messages

A decoder that skips corrupt messages gives the columns of one that fails on them, had each
rejected message been empty (`Decoder.decode_skip`). The two run side by side: after every message
their collectors are the same. -/

namespace WireColumns.Decoder

variable {d : Decoder} {s t : Session}

/-- The batch in which every rejected message is replaced by an empty one. -/
def blankRejected (d : Decoder) (messages : List Bytes) : List Bytes :=
  messages.map fun m => if d.rejects m then [] else m

theorem Valid.withPolicy (hd : d.Valid) (policy : CorruptPolicy) : (d.withPolicy policy).Valid :=
  ⟨hd.ascending, hd.slots_nodup, hd.slot_lt⟩

/-- Two sessions that differ at most in the number of skipped messages. -/
structure SameProgress (s t : Session) : Prop where
  collectors_eq : s.collectors = t.collectors
  messageCount_eq : s.messageCount = t.messageCount

theorem Fits.withPolicy (hs : d.Fits s) (h : SameProgress s t) (policy : CorruptPolicy) :
    (d.withPolicy policy).Fits t :=
  ⟨h.collectors_eq ▸ hs.same, h.collectors_eq ▸ h.messageCount_eq ▸ hs.below⟩

/-- One message: skipped where it is rejected, and replaced for the decoder that fails. -/
theorem consume_skip_or_blank (hd : d.Valid) (hp : d.options.onCorrupt = .skip)
    (hs : d.Fits s) (h : SameProgress s t) (message : Bytes) :
    ∃ s' t', d.consume s message = .ok s' ∧
      (d.withPolicy .fail).consume t (if d.rejects message then [] else message) = .ok t' ∧
      d.Fits s' ∧ SameProgress s' t' ∧ s'.messageCount = s.messageCount + 1 ∧
      s'.corruptCount = s.corruptCount + if d.rejects message then 1 else 0 := by
  cases hr : d.rejects message with
  | true =>
    refine ⟨_, _, consume_of_rejected hd hs hp hr, consume_nil .., ?_, ?_, rfl, rfl⟩
    · have hnil := hs.addAll (fun _ _ => []) (s.corruptCount + 1)
      rwa [Collector.addAll_nil] at hnil
    · exact ⟨h.collectors_eq, congrArg (· + 1) h.messageCount_eq⟩
  | false =>
    have ht := hs.withPolicy h .fail
    have hr' : (d.withPolicy .fail).rejects message = false := hr
    refine ⟨_, _, consume_of_accepted hd hs hr, consume_of_accepted (hd.withPolicy _) ht hr',
      ?_, ⟨?_, congrArg (· + 1) h.messageCount_eq⟩, rfl, rfl⟩
    · obtain ⟨vs, hvs⟩ := hs.exists_addAll hd message
      rw [hvs]
      exact hs.addAll vs _
    · have : (d.withPolicy .fail).dispatched t message = d.dispatched s message := by
        rw [dispatched, dispatched, h.collectors_eq, h.messageCount_eq]
        rfl
      exact congrArg finalState this.symm

theorem foldlM_skip_or_blank (hd : d.Valid) (hp : d.options.onCorrupt = .skip)
    (messages : List Bytes) (hs : d.Fits s) (h : SameProgress s t) :
    ∃ s' t', messages.foldlM d.consume s = .ok s' ∧
      (d.blankRejected messages).foldlM (d.withPolicy .fail).consume t = .ok t' ∧
      SameProgress s' t' ∧ s'.messageCount = s.messageCount + messages.length ∧
      s'.corruptCount = s.corruptCount + messages.countP d.rejects := by
  induction messages generalizing s t with
  | nil => exact ⟨s, t, rfl, rfl, h, rfl, rfl⟩
  | cons m messages ih =>
    obtain ⟨s₁, t₁, hs₁, ht₁, hfits, hsame, hcount, hcorrupt⟩ :=
      consume_skip_or_blank hd hp hs h m
    obtain ⟨s₂, t₂, hs₂, ht₂, hsame₂, hcount₂, hcorrupt₂⟩ := ih hfits hsame
    refine ⟨s₂, t₂, ?_, ?_, hsame₂, ?_, ?_⟩
    · rw [List.foldlM_cons, hs₁]
      exact hs₂
    · rw [blankRejected, List.map_cons, List.foldlM_cons, ht₁]
      exact ht₂
    · rw [hcount₂, hcount, List.length_cons]
      omega
    · rw [hcorrupt₂, hcorrupt, List.countP_cons]
      omega

/-- A decoder that skips corrupt messages never fails. It gives what the decoder that fails on them
gives for the batch with rejected messages replaced by empty ones, and counts the replaced ones. -/
theorem decode_skip {fields : List FieldSpec} {options : DecodeOptions}
    (hd : ofFields fields options = .ok d) (hp : options.onCorrupt = .skip)
    (messages : List Bytes) :
    ∃ batch batch', d.decode messages = .ok batch ∧
      (d.withPolicy .fail).decode (d.blankRejected messages) = .ok batch' ∧
      batch.numbers = batch'.numbers ∧ batch.columns = batch'.columns ∧
      batch.messageCount = messages.length ∧
      batch.corruptCount = messages.countP d.rejects := by
  have hvalid := valid_of_ofFields hd
  rw [← options_of_ofFields hd] at hp
  obtain ⟨s, t, hs, ht, hsame, hcount, hcorrupt⟩ :=
    foldlM_skip_or_blank hvalid hp messages hvalid.fits_start ⟨rfl, rfl⟩
  refine ⟨d.finish s, (d.withPolicy .fail).finish t, ?_, ?_, rfl, ?_, ?_, ?_⟩
  · rw [decode, hs]
  · rw [decode, show (d.withPolicy .fail).start = d.start from rfl, ht]
  · simp only [finish, hsame.collectors_eq]
    rfl
  · rw [show (d.finish s).messageCount = s.messageCount from rfl, hcount]
    exact Nat.zero_add _
  · rw [show (d.finish s).corruptCount = s.corruptCount from rfl, hcorrupt]
    exact Nat.zero_add _

/-- Three messages of which the second ends within a value, behind one that can be read. That one is
rolled back, and the columns are those of the batch in which the second message is empty. -/
theorem decode_skip_truncated :
    ofFields [⟨1, .int32, true, none, none⟩] { onCorrupt := .skip } =
        .ok ⟨[⟨⟨1, .int32, true, none, none⟩, 0⟩], { onCorrupt := .skip }⟩ ∧
      ∃ batch, decode ⟨[⟨⟨1, .int32, true, none, none⟩, 0⟩], { onCorrupt := .skip }⟩
          [[8, 5], [8, 6, 8, 255], [8, 7]] = .ok batch ∧
        batch.messageCount = 3 ∧ batch.corruptCount = 1 ∧
        batch.columns = [⟨.int32, .borrowed, [.int32 5, .int32 7], [0, 2]⟩] := by
  have hfields : ofFields [⟨1, .int32, true, none, none⟩] { onCorrupt := .skip } =
      .ok ⟨[⟨⟨1, .int32, true, none, none⟩, 0⟩], { onCorrupt := .skip }⟩ := by cbv
  have hblank : decode ⟨[⟨⟨1, .int32, true, none, none⟩, 0⟩], {}⟩ [[8, 5], [], [8, 7]] =
      .ok ⟨[1], [⟨.int32, .borrowed, [.int32 5, .int32 7], [0, 2]⟩], 3, 0⟩ := by cbv
  obtain ⟨batch, batch', hbatch, hbatch', -, hcolumns, hcount, hcorrupt⟩ :=
    decode_skip hfields rfl [[8, 5], [8, 6, 8, 255], [8, 7]]
  have hreplaced : blankRejected ⟨[⟨⟨1, .int32, true, none, none⟩, 0⟩], { onCorrupt := .skip }⟩
      [[8, 5], [8, 6, 8, 255], [8, 7]] = [[8, 5], [], [8, 7]] := by cbv
  rw [hreplaced] at hbatch'
  obtain rfl := Except.ok.inj (hbatch'.symm.trans hblank)
  exact ⟨hfields, batch, hbatch, hcount, hcorrupt.trans (by cbv), hcolumns⟩

end WireColumns.Decoder
