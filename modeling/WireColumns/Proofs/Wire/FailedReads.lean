import WireColumns.Proofs.Wire.Callers

/-! # Reads that fail

A read that fails leaves the reader as it was, so that the payload can still be read in another way
or skipped. There is one exception (`Reader.Call.TakesUnsuitable`): who asks for a run of a kind
that cannot be one is told so only after the payload has been taken. It is gone then: no read gives
it any more (`Reader.failed_reads`). -/

namespace WireColumns.Reader

variable {r r' : Reader} {e : Error} {call : Call} {calls : List Call}

/-- The call asks for a payload that can be taken, as a run of a kind that cannot be one. -/
def Call.TakesUnsuitable (r : Reader) : Call → Prop
  | packed type kind => (∃ misuse, packedMisuse? type kind = some misuse) ∧
      r.wire = .lengthDelimited ∧ r.pending = true ∧
      ∃ data rest, Read.lengthDelimited r.cursor.rest = .ok data rest
  | raw | value _ _ | skip => False

/-- The reader after some calls, whatever they have given. -/
def afterCalls (calls : List Call) (r : Reader) : Reader :=
  calls.foldl (fun r call => finalState (call.perform r)) r

/-! ## Taking a payload -/

theorem take_of_read {α : Type} {read : Read α} {a : α} {rest : Bytes} (hpending : r.pending = true)
    (h : read r.cursor.rest = .ok a rest) : take read r = .ok a (r.behind rest) := by
  rw [take, hpending, if_pos rfl, Cursor.run_eq_ok_iff.2 ⟨rest, h, rfl⟩]
  rfl

/-- Without a pending payload there is nothing to read. -/
theorem Call.pending_of_ok {reply : Reply} (hcall : call ≠ .skip)
    (h : call.perform r = .ok reply r') : r.pending = true := by
  cases call with
  | raw =>
    obtain ⟨p, hread⟩ := map_eq_ok h
    exact (take_eq_ok hread).1
  | value type kind =>
    obtain ⟨v, hread⟩ := map_eq_ok h
    rw [readValue] at hread
    split at hread
    next => cases hread
    next =>
      split at hread
      next => cases hread
      next => exact (take_eq_ok hread).1
  | packed type kind =>
    obtain ⟨reading, hread⟩ := map_eq_ok h
    rw [readPacked] at hread
    split at hread
    next => cases hread
    next =>
      split at hread
      next => cases hread
      next htake => exact (take_eq_ok htake).1
  | skip => exact absurd rfl hcall

/-! ## Failing -/

theorem readPacked_of_unsuitable {type : ValueType} {kind : FieldKind} {misuse : Misuse}
    {data rest : Bytes} (hmisuse : packedMisuse? type kind = some misuse)
    (hwire : r.wire = .lengthDelimited) (hpending : r.pending = true)
    (h : Read.lengthDelimited r.cursor.rest = .ok data rest) :
    readPacked type kind r = .error (.invalidArgument misuse) (r.behind rest) := by
  rw [readPacked, if_neg (not_not.2 hwire), take_of_read hpending h]
  dsimp only
  rw [hmisuse]

/-- A read that takes the payload for an unsuitable kind fails, and the payload is passed over. -/
theorem Call.TakesUnsuitable.perform (h : call.TakesUnsuitable r) :
    ∃ misuse r', call.perform r = .error (.invalidArgument misuse) r' ∧
      Reader.skip r = .ok () r' := by
  cases call with
  | packed type kind =>
    obtain ⟨⟨misuse, hmisuse⟩, hwire, hpending, data, rest, hdata⟩ := h
    refine ⟨misuse, r.behind rest, ?_, ?_⟩
    · simp only [Call.perform, Functor.map, EStateM.map,
        readPacked_of_unsuitable hmisuse hwire hpending hdata]
    · exact skip_of_take_run hwire (take_of_read hpending hdata)
  | raw | value _ _ | skip => exact h.elim

/-- Every other read that fails leaves the reader as it is. -/
theorem Call.eq_of_error (hcall : call ≠ .skip) (h : call.perform r = .error e r')
    (hsuitable : ¬ call.TakesUnsuitable r) : r' = r := by
  cases call with
  | raw => exact take_eq_error (map_eq_error h)
  | value type kind => exact readValue_eq_error (map_eq_error h)
  | packed type kind =>
    rcases readPacked_eq_error (map_eq_error h) with heq | ⟨hwire, hmisuse, data, htake⟩
    · exact heq
    · obtain ⟨hpending, rest, hdata, -⟩ := take_eq_ok htake
      exact absurd ⟨hmisuse, hwire, hpending, data, rest, hdata⟩ hsuitable
  | skip => exact absurd rfl hcall

theorem Call.TakesUnsuitable.ne_of_error (hcall : call.TakesUnsuitable r)
    (h : call.perform r = .error e r') : r' ≠ r := by
  rintro rfl
  obtain ⟨misuse, r₁, hperform, hskip⟩ := hcall.perform
  cases h.symm.trans hperform
  -- the payload was pending, and behind it nothing is
  cases call with
  | packed type kind => exact Bool.false_ne_true ((pending_of_skip hskip).symm.trans hcall.2.2.1)
  | raw | value _ _ | skip => exact hcall

/-- Any number of such reads leave the reader as it is. -/
theorem afterCalls_eq_self
    (h : ∀ call ∈ calls, call ≠ .skip ∧ ¬ call.TakesUnsuitable r ∧
      ∃ e r', call.perform r = .error e r') : afterCalls calls r = r := by
  induction calls with
  | nil => rfl
  | cons call calls ih =>
    rw [List.forall_mem_cons] at h
    obtain ⟨⟨hcall, hsuitable, e, r₁, hperform⟩, hcalls⟩ := h
    have hstep : finalState (call.perform r) = r := by
      rw [hperform]
      exact Call.eq_of_error hcall hperform hsuitable
    rw [afterCalls, List.foldl_cons, hstep]
    exact ih hcalls

/-- A read that fails leaves the reader as it was, unless it has taken the payload for a kind that
cannot be a run. So after any number of other failed reads the payload can be read or skipped as
before. A read that takes the payload for an unsuitable kind fails for that reason, the reader then
stands where it would have skipped to, and no read gives the payload any more. -/
theorem failed_reads (r : Reader) :
    (∀ (call : Call) (e : Error) (r' : Reader), call ≠ .skip → call.perform r = .error e r' →
      (r' = r ↔ ¬ call.TakesUnsuitable r)) ∧
    (∀ calls : List Call, (∀ call ∈ calls, call ≠ .skip ∧ ¬ call.TakesUnsuitable r ∧
        ∃ e r', call.perform r = .error e r') → afterCalls calls r = r) ∧
    ∀ call : Call, call.TakesUnsuitable r →
      ∃ misuse r', call.perform r = .error (.invalidArgument misuse) r' ∧ skip r = .ok () r' ∧
        ∀ (next : Call) (reply : Reply) (r'' : Reader), next ≠ .skip →
          next.perform r' ≠ .ok reply r'' := by
  refine ⟨fun call e r' hcall h => ⟨fun heq hunsuitable => ?_, Call.eq_of_error hcall h⟩,
    fun calls => afterCalls_eq_self, fun call hunsuitable => ?_⟩
  · exact hunsuitable.ne_of_error h heq
  · obtain ⟨misuse, r', hperform, hskip⟩ := hunsuitable.perform
    refine ⟨misuse, r', hperform, hskip, fun next reply r'' hnext hok => ?_⟩
    exact Bool.false_ne_true ((pending_of_skip hskip).symm.trans (Call.pending_of_ok hnext hok))

/-- Not every read that fails leaves its payload pending: of a string that is asked for as a run,
nothing is left. -/
theorem not_pending_of_failed_read :
    ¬ ∀ (message : Bytes) (tag : Tag) (r r' : Reader) (type : ValueType) (kind : FieldKind)
        (e : Error), nextTag (ofMessage message) = .ok (some tag) r →
      readPacked type kind r = .error e r' →
      r'.cursor.position = r.cursor.position ∧ r'.wire = r.wire ∧ r'.pending = r.pending := by
  intro h
  have htag : nextTag (ofMessage [0x0a, 0x02, 0x68, 0x69]) =
      .ok (some ⟨1, .lengthDelimited⟩)
        ⟨⟨[0x0a, 0x02, 0x68, 0x69], 1, by decide⟩, .lengthDelimited, true⟩ := by rfl
  have hread : readPacked .bytes .string
        ⟨⟨[0x0a, 0x02, 0x68, 0x69], 1, by decide⟩, .lengthDelimited, true⟩ =
      .error (.invalidArgument (.notPackable .string))
        ⟨⟨[0x0a, 0x02, 0x68, 0x69], 4, by decide⟩, .lengthDelimited, false⟩ := by rfl
  obtain ⟨-, -, hpending⟩ := h _ _ _ _ _ _ _ htag hread
  cases hpending

end WireColumns.Reader
