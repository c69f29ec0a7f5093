import WireColumns.Proofs.Wire.Locality
import WireColumns.Proofs.Wire.Payloads
import WireColumns.Proofs.Wire.Visit
import WireColumns.Wire.Reader

/-! # Callers of a reader

Between two tags a caller may read or skip the payload as often and in whatever way it likes, and
what it does may depend on what it has seen (`Reader.Caller`). None of this changes where the
payload ends: skipping what is left of it comes to the same before and after every call
(`Reader.Call.skip_eq_of_ok`, `Reader.Call.skip_eq_of_error`). So all callers see the same tags at
the same places, and if the walk comes to the end of the message, the tags and payloads make up the
message (`Reader.Caller.walk_eq_walk`). -/

namespace WireColumns

open Read

namespace Reader

variable {α : Type} {r r₁ r₂ r' : Reader} {e : Error} {p rest : Bytes}

/-! ## Taking and skipping payloads -/

/-- The reader behind the pending payload, with the given bytes left. -/
def behind (r : Reader) (rest : Bytes) : Reader :=
  { r with cursor := r.cursor.moveTo (r.cursor.buffer.length - rest.length), pending := false }

theorem skip_of_not_pending (h : r.pending = false) : skip r = .ok () r := by
  rw [skip, h]
  rfl

theorem skip_of_payload (hpending : r.pending = true)
    (h : payload r.wire r.cursor.rest = .ok p rest) : skip r = .ok () (r.behind rest) := by
  rw [skip, hpending, if_pos rfl, Cursor.run_eq_ok_iff.2 ⟨rest, h, rfl⟩]
  rfl

theorem skip_eq_ok (h : skip r = .ok () r') :
    r.pending = false ∧ r' = r ∨
      r.pending = true ∧ ∃ p rest, payload r.wire r.cursor.rest = .ok p rest ∧
        r' = r.behind rest := by
  rw [skip] at h
  split at h
  next hpending =>
    split at h
    next p cursor hrun =>
      cases h
      obtain ⟨rest, hpayload, rfl⟩ := Cursor.run_eq_ok_iff.1 hrun
      exact .inr ⟨hpending, p, rest, hpayload, rfl⟩
    next => cases h
  next hpending =>
    cases h
    exact .inl ⟨Bool.eq_false_iff.2 hpending, rfl⟩

theorem pending_of_skip (h : skip r = .ok () r') : r'.pending = false := by
  rcases skip_eq_ok h with ⟨hpending, rfl⟩ | ⟨-, p, rest, -, rfl⟩
  · exact hpending
  · rfl

/-- Behind a payload that has been skipped there is nothing to skip. -/
theorem skip_of_skip (h : skip r = .ok () r') : skip r' = skip r := by
  rw [skip_of_not_pending (pending_of_skip h), h]

theorem skip_eq_error (h : skip r = .error e r') : ∃ cause, e = .corrupt cause := by
  rw [skip] at h
  split at h
  next =>
    split at h
    next => cases h
    next cause _ _ =>
      cases h
      exact ⟨cause, rfl⟩
  next => cases h

theorem take_eq_ok {read : Read α} {a : α} (h : take read r = .ok a r') :
    r.pending = true ∧ ∃ rest, read r.cursor.rest = .ok a rest ∧ r' = r.behind rest := by
  rw [take] at h
  split at h
  next hpending =>
    split at h
    next hrun =>
      cases h
      obtain ⟨rest, hread, rfl⟩ := Cursor.run_eq_ok_iff.1 hrun
      exact ⟨hpending, rest, hread, rfl⟩
    next => cases h
  next => cases h

theorem take_eq_error {read : Read α} (h : take read r = .error e r') : r' = r := by
  rw [take] at h
  split at h
  next =>
    split at h
    next => cases h
    next =>
      cases h
      rfl
  next =>
    cases h
    rfl

/-- Who takes a payload stands where it would have been skipped to. -/
theorem skip_of_take {read : Read α} {a : α} (h : take read r = .ok a r')
    (hread : ∀ rest, read r.cursor.rest = .ok a rest →
      ∃ p, payload r.wire r.cursor.rest = .ok p rest) : skip r = .ok () r' := by
  obtain ⟨hpending, rest, ha, rfl⟩ := take_eq_ok h
  obtain ⟨p, hp⟩ := hread rest ha
  exact skip_of_payload hpending hp

theorem skip_of_readRaw (h : readRaw r = .ok p r') : skip r = .ok () r' :=
  skip_of_take h fun _ hp => ⟨p, hp⟩

theorem skip_of_readValue {type : ValueType} {kind : FieldKind} {v : Value}
    (h : readValue type kind r = .ok v r') : skip r = .ok () r' := by
  rw [readValue] at h
  split at h
  next => cases h
  next =>
    split at h
    next => cases h
    next hwire =>
      rw [not_not] at hwire
      exact skip_of_take h fun _ hv => hwire ▸ FieldKind.payload_of_read hv

theorem readValue_eq_error {type : ValueType} {kind : FieldKind}
    (h : readValue type kind r = .error e r') : r' = r := by
  rw [readValue] at h
  split at h
  next =>
    cases h
    rfl
  next =>
    split at h
    next =>
      cases h
      rfl
    next => exact take_eq_error h

theorem skip_of_take_run {data : Bytes} (hwire : r.wire = .lengthDelimited)
    (h : take lengthDelimited r = .ok data r') : skip r = .ok () r' :=
  skip_of_take h fun _ hdata => hwire ▸ payload_of_lengthDelimited hdata

theorem skip_of_readPacked {type : ValueType} {kind : FieldKind} {reading : Reading}
    (h : readPacked type kind r = .ok reading r') : skip r = .ok () r' := by
  rw [readPacked] at h
  split at h
  next => cases h
  next hwire =>
    rw [not_not] at hwire
    split at h
    next => cases h
    next htake =>
      split at h
      next => cases h
      next =>
        cases h
        exact skip_of_take_run hwire htake

/-- A run that fails has been taken if only its kind is not suitable. -/
theorem readPacked_eq_error {type : ValueType} {kind : FieldKind}
    (h : readPacked type kind r = .error e r') :
    r' = r ∨ r.wire = .lengthDelimited ∧ (∃ misuse, packedMisuse? type kind = some misuse) ∧
      ∃ data, take lengthDelimited r = .ok data r' := by
  rw [readPacked] at h
  split at h
  next =>
    cases h
    exact .inl rfl
  next hwire =>
    rw [not_not] at hwire
    split at h
    next htake =>
      cases h
      exact .inl (take_eq_error htake)
    next data r₁ htake =>
      split at h
      next misuse hmisuse =>
        cases h
        exact .inr ⟨hwire, ⟨misuse, hmisuse⟩, data, htake⟩
      next => cases h

/-! ## Calls -/

/-- What a caller may ask of the reader between two tags. -/
inductive Call
  | raw
  | value (type : ValueType) (kind : FieldKind)
  | packed (type : ValueType) (kind : FieldKind)
  | skip
  deriving DecidableEq, Repr

/-- What it may get. -/
inductive Reply
  | raw (payload : Bytes)
  | value (value : Value)
  | packed (reading : Reading)
  | skipped

namespace Call

variable {call : Call} {reply : Reply}

def perform : Call → Action Reply
  | raw => Reply.raw <$> readRaw
  | value type kind => Reply.value <$> readValue type kind
  | packed type kind => Reply.packed <$> readPacked type kind
  | skip => (fun _ => Reply.skipped) <$> Reader.skip

theorem map_eq_ok {β : Type} {f : α → β} {action : Action α} {b : β}
    (h : (f <$> action) r = .ok b r') : ∃ a, action r = .ok a r' := by
  simp only [Functor.map, EStateM.map] at h
  split at h
  next a _ heq =>
    cases h
    exact ⟨a, heq⟩
  next => cases h

theorem map_eq_error {β : Type} {f : α → β} {action : Action α}
    (h : (f <$> action) r = .error e r') : action r = .error e r' := by
  simp only [Functor.map, EStateM.map] at h
  split at h
  next => cases h
  next heq =>
    cases h
    exact heq

/-- A call that succeeds moves behind the payload. -/
theorem skip_of_ok (h : call.perform r = .ok reply r') : Reader.skip r = .ok () r' := by
  cases call with
  | raw =>
    obtain ⟨p, hread⟩ := map_eq_ok h
    exact skip_of_readRaw hread
  | value type kind =>
    obtain ⟨v, hread⟩ := map_eq_ok h
    exact skip_of_readValue hread
  | packed type kind =>
    obtain ⟨reading, hread⟩ := map_eq_ok h
    exact skip_of_readPacked hread
  | skip =>
    obtain ⟨_, hskip⟩ := map_eq_ok h
    exact hskip

theorem skip_eq_of_ok (h : call.perform r = .ok reply r') : Reader.skip r' = Reader.skip r :=
  skip_of_skip (skip_of_ok h)

/-- A read that fails leaves the payload, or has moved behind it. -/
theorem skip_eq_of_error (h : call.perform r = .error e r') (hcall : call ≠ .skip) :
    Reader.skip r' = Reader.skip r := by
  cases call with
  | raw => rw [take_eq_error (map_eq_error h)]
  | value type kind => rw [readValue_eq_error (map_eq_error h)]
  | packed type kind =>
    rcases readPacked_eq_error (map_eq_error h) with rfl | ⟨hwire, -, data, htake⟩
    · rfl
    · exact skip_of_skip (skip_of_take_run hwire htake)
  | skip => exact absurd rfl hcall

end Call

/-- What a caller does between two tags: it makes up its mind, or makes a call and goes on
according to what the call gives and to how the reader is then. -/
inductive Strategy (σ : Type)
  | done (s : σ)
  | exec (call : Call) (next : Except Error Reply → Reader → Strategy σ)

/-- A read that fails is one more thing to go on from; a payload that cannot be skipped ends the
walk. -/
def Strategy.run {σ : Type} : Strategy σ → Action σ
  | done s, r => .ok s r
  | exec call next, r =>
    match call.perform r with
    | .ok reply r' => (next (.ok reply) r').run r'
    | .error e r' => if call = .skip then .error e r' else (next (.error e) r').run r'

section

variable {σ : Type} {s s' : σ} {strategy : Strategy σ}

/-- Whatever a caller does, the payload ends at the same place. -/
theorem Strategy.skip_eq_of_run (h : strategy.run r = .ok s r') : skip r' = skip r := by
  induction strategy generalizing r with
  | done => cases h; rfl
  | exec call next ih =>
    rw [run] at h
    split at h
    next hperform => exact (ih _ _ h).trans (Call.skip_eq_of_ok hperform)
    next hperform =>
      split at h
      next => cases h
      next hcall => exact (ih _ _ h).trans (Call.skip_eq_of_error hperform hcall)

/-- What ends the walk of a caller is a payload that cannot be skipped. -/
theorem Strategy.skip_of_run_error (h : strategy.run r = .error e r') :
    ∃ r', skip r = .error e r' := by
  induction strategy generalizing r with
  | done => cases h
  | exec call next ih =>
    rw [run] at h
    split at h
    next hperform => exact Call.skip_eq_of_ok hperform ▸ ih _ _ h
    next hperform =>
      split at h
      next hcall =>
        cases h
        subst hcall
        exact ⟨_, Call.map_eq_error hperform⟩
      next hcall => exact Call.skip_eq_of_error hperform hcall ▸ ih _ _ h

end

/-! ## Tags -/

theorem nextTag_eq (r : Reader) :
    nextTag r =
      match skip r with
      | .ok _ r' => readTag r'
      | .error e r' => .error e r' := by
  simp only [nextTag, bind, EStateM.bind]
  cases skip r <;> rfl

/-- The next tag depends on nothing but where the payload ends. -/
theorem nextTag_congr (h : skip r₁ = skip r₂) : nextTag r₁ = nextTag r₂ := by
  rw [nextTag_eq, nextTag_eq, h]

theorem readTag_eq_none (h : readTag r = .ok none r') : r.cursor.rest = [] := by
  rw [readTag] at h
  split at h
  next hend => exact Cursor.isAtEnd_iff.1 hend
  next => split at h <;> cases h

/-- A tag that is read stands in front of its payload. -/
theorem readTag_eq_some {tag : Tag} (h : readTag r = .ok (some tag) r') :
    r'.pending = true ∧
      r.cursor.rest = r'.cursor.sliceFrom r.cursor.position ++ r'.cursor.rest ∧
      r'.cursor.rest.length < r.cursor.rest.length := by
  rw [readTag] at h
  split at h
  next => cases h
  next =>
    split at h
    next hrun =>
      cases h
      obtain ⟨rest, htag, rfl⟩ := Cursor.run_eq_ok_iff.1 hrun
      obtain ⟨⟨lead, tag⟩, hheader, rfl⟩ := map_eq_ok_iff.1 htag
      obtain ⟨hrest, -⟩ := header_eq_ok hheader
      refine ⟨rfl, ?_, ?_⟩
      · dsimp only
        rw [Cursor.sliceFrom_moveTo hrest, Cursor.rest_moveTo hrest, hrest]
      · dsimp only
        rw [Cursor.rest_moveTo hrest]
        exact header_advances hheader
    next => cases h

theorem readTag_eq_error (h : readTag r = .error e r') : ∃ cause, e = .corrupt cause := by
  rw [readTag] at h
  split at h
  next => cases h
  next =>
    split at h
    next => cases h
    next cause _ _ =>
      cases h
      exact ⟨cause, rfl⟩

theorem nextTag_eq_ok {tag? : Option Tag} (h : nextTag r = .ok tag? r₁) :
    ∃ r₀, skip r = .ok () r₀ ∧ readTag r₀ = .ok tag? r₁ := by
  rw [nextTag_eq] at h
  split at h
  next r₀ hskip => exact ⟨r₀, hskip, h⟩
  next => cases h

theorem nextTag_eq_error (h : nextTag r = .error e r') : ∃ cause, e = .corrupt cause := by
  rw [nextTag_eq] at h
  split at h
  next => exact readTag_eq_error h
  next hskip =>
    cases h
    exact skip_eq_error hskip

theorem nextTag_of_skip_error (h : skip r = .error e r') : nextTag r = .error e r' := by
  rw [nextTag_eq, h]

/-- Reading the payload gives the bytes that skipping passes over. -/
theorem readRaw_of_skip (hpending : r.pending = true) (h : skip r = .ok () r') :
    ∃ p, readRaw r = .ok p r' ∧ r.cursor.rest = p ++ r'.cursor.rest := by
  rcases skip_eq_ok h with ⟨hnot, -⟩ | ⟨-, p, rest, hp, rfl⟩
  · exact absurd (hpending.symm.trans hnot) (by decide)
  · obtain ⟨hrest, -⟩ := payload_eq_ok hp
    refine ⟨p, ?_, ?_⟩
    · rw [readRaw, take, hpending, if_pos rfl, Cursor.run_eq_ok_iff.2 ⟨rest, hp, rfl⟩]
      rfl
    · rw [behind, Cursor.rest_moveTo hrest, hrest]

/-- The number of bytes behind the current field. -/
def left (r : Reader) : Nat :=
  match skip r with
  | .ok _ r' => r'.cursor.rest.length
  | .error _ _ => 0

theorem left_congr (h : skip r₁ = skip r₂) : r₁.left = r₂.left := by
  rw [left, left, h]

theorem left_le (r : Reader) : r.left ≤ r.cursor.rest.length := by
  rw [left]
  split
  next hskip =>
    rcases skip_eq_ok hskip with ⟨-, rfl⟩ | ⟨-, p, rest, hp, rfl⟩
    · exact Nat.le_refl _
    · obtain ⟨hrest, -⟩ := payload_eq_ok hp
      rw [behind, Cursor.rest_moveTo hrest]
      exact payload_length_le hp
  next => exact Nat.zero_le _

theorem left_lt {tag : Tag} (h : nextTag r = .ok (some tag) r₁) : r₁.left < r.left := by
  obtain ⟨r₀, hskip, htag⟩ := nextTag_eq_ok h
  have hleft : r.left = r₀.cursor.rest.length := by rw [left, hskip]
  rw [hleft]
  exact Nat.lt_of_le_of_lt (left_le r₁) (readTag_eq_some htag).2.2

/-! ## Walks -/

/-- A caller: what it does with each tag depends on what it has made of the ones in front. -/
structure Caller (σ : Type) where
  start : σ
  handle : σ → Tag → Reader → Strategy σ

/-- A tag that is seen: where it starts, and the reader behind it. -/
structure Sighting where
  tag : Tag
  start : Nat
  reader : Reader

/-- The bytes of the tag. -/
def Sighting.lead (x : Sighting) : Bytes := x.reader.cursor.sliceFrom x.start

/-- The tags that are seen up to the end of the message or to an error. -/
structure Trace where
  seen : List Sighting
  failure? : Option Error

namespace Caller

variable {σ : Type} {s s' : σ} {tag : Tag} (caller : Caller σ)

/-- Asks for tags until there is none. -/
def walkFrom (s : σ) (r : Reader) : Trace :=
  match _hnext : nextTag r with
  | .error e _ => ⟨[], some e⟩
  | .ok none _ => ⟨[], none⟩
  | .ok (some tag) r₁ =>
    let sighting := ⟨tag, (finalState (skip r)).cursor.position, r₁⟩
    match _hrun : (caller.handle s tag r₁).run r₁ with
    | .error e _ => ⟨[sighting], some e⟩
    | .ok s' r₂ =>
      let trace := walkFrom s' r₂
      ⟨sighting :: trace.seen, trace.failure?⟩
termination_by r.left
decreasing_by
  rw [left_congr (Strategy.skip_eq_of_run _hrun)]
  exact left_lt _hnext

/-- The walk over a message. -/
def walk (message : Bytes) : Trace := caller.walkFrom caller.start (ofMessage message)

/-- The caller that asks for tags only. -/
def idle : Caller Unit := ⟨(), fun s _ _ => .done s⟩

theorem walkFrom_of_error (h : nextTag r = .error e r') (s : σ) :
    caller.walkFrom s r = ⟨[], some e⟩ := by
  rw [walkFrom]
  split
  next hnext =>
    cases h.symm.trans hnext
    rfl
  next hnext => cases h.symm.trans hnext
  next hnext => cases h.symm.trans hnext

theorem walkFrom_of_end (h : nextTag r = .ok none r') (s : σ) :
    caller.walkFrom s r = ⟨[], none⟩ := by
  rw [walkFrom]
  split
  next hnext => cases h.symm.trans hnext
  next => rfl
  next hnext => cases h.symm.trans hnext

theorem walkFrom_of_tag (h : nextTag r = .ok (some tag) r₁)
    (hrun : (caller.handle s tag r₁).run r₁ = .ok s' r₂) :
    caller.walkFrom s r =
      ⟨⟨tag, (finalState (skip r)).cursor.position, r₁⟩ :: (caller.walkFrom s' r₂).seen,
        (caller.walkFrom s' r₂).failure?⟩ := by
  rw [walkFrom]
  split
  next hnext => cases h.symm.trans hnext
  next hnext => cases h.symm.trans hnext
  next hnext =>
    cases h.symm.trans hnext
    dsimp only
    split
    next herror => cases hrun.symm.trans herror
    next hok =>
      cases hrun.symm.trans hok
      rfl

theorem walkFrom_idle (h : nextTag r = .ok (some tag) r₁) :
    idle.walkFrom () r =
      ⟨⟨tag, (finalState (skip r)).cursor.position, r₁⟩ :: (idle.walkFrom () r₁).seen,
        (idle.walkFrom () r₁).failure?⟩ := walkFrom_of_tag idle h rfl

/-- What an idle caller sees depends on nothing but where the payload ends. -/
theorem walkFrom_idle_congr (h : skip r₁ = skip r₂) :
    idle.walkFrom () r₁ = idle.walkFrom () r₂ := by
  cases hnext : nextTag r₁ with
  | error e r' =>
    rw [walkFrom_of_error _ hnext, walkFrom_of_error _ (nextTag_congr h ▸ hnext)]
  | ok tag? r' =>
    cases tag? with
    | none => rw [walkFrom_of_end _ hnext, walkFrom_of_end _ (nextTag_congr h ▸ hnext)]
    | some tag =>
      have hnext' : nextTag r₂ = .ok (some tag) r' := nextTag_congr h ▸ hnext
      rw [walkFrom_idle hnext, walkFrom_idle hnext', h]

/-- Every caller sees what an idle one sees. -/
theorem walkFrom_eq_idle (s : σ) (r : Reader) : caller.walkFrom s r = idle.walkFrom () r := by
  fun_induction walkFrom caller s r with
  | case1 s r e r' hnext => rw [walkFrom_of_error _ hnext]
  | case2 s r r' hnext => rw [walkFrom_of_end _ hnext]
  | case3 s r tag r₁ hnext sighting e r₂ hrun =>
    -- what the caller could not skip, the idle one cannot skip when it asks for the next tag
    obtain ⟨r', hskip⟩ := Strategy.skip_of_run_error hrun
    rw [walkFrom_idle hnext, walkFrom_of_error _ (nextTag_of_skip_error hskip)]
  | case4 s r tag r₁ hnext sighting s' r₂ hrun trace ih =>
    rw [walkFrom_idle hnext, ← walkFrom_idle_congr (Strategy.skip_eq_of_run hrun), ← ih]

/-- What ends a walk too early is corrupt input. -/
theorem failure_of_walkFrom (h : (caller.walkFrom s r).failure? = some e) :
    ∃ cause, e = .corrupt cause := by
  fun_induction walkFrom caller s r with
  | case1 s r e' r' hnext =>
    cases h
    exact nextTag_eq_error hnext
  | case2 => cases h
  | case3 s r tag r₁ hnext sighting e' r₂ hrun =>
    cases h
    obtain ⟨r', hskip⟩ := Strategy.skip_of_run_error hrun
    exact skip_eq_error hskip
  | case4 s r tag r₁ hnext sighting s' r₂ hrun trace ih => exact ih h

/-- A walk that comes to the end of the message has seen all of it. -/
theorem rest_of_walkFrom (h : (caller.walkFrom s r).failure? = none) :
    ∃ r₀ payloads, skip r = .ok () r₀ ∧
      List.Forall₂ (fun x p => ∃ r', readRaw x.reader = .ok p r') (caller.walkFrom s r).seen
        payloads ∧
      r₀.cursor.rest =
        (List.zipWith (fun x p => x.lead ++ p) (caller.walkFrom s r).seen payloads).flatten := by
  fun_induction walkFrom caller s r with
  | case1 => cases h
  | case2 s r r' hnext =>
    obtain ⟨r₀, hskip, htag⟩ := nextTag_eq_ok hnext
    exact ⟨r₀, [], hskip, .nil, readTag_eq_none htag⟩
  | case3 => cases h
  | case4 s r tag r₁ hnext sighting s' r₂ hrun trace ih =>
    obtain ⟨r₀, hskip, htag⟩ := nextTag_eq_ok hnext
    obtain ⟨hpending, hlead, -⟩ := readTag_eq_some htag
    obtain ⟨r₀', payloads, hskip', hpayloads, hrest⟩ := ih h
    rw [Strategy.skip_eq_of_run hrun] at hskip'
    obtain ⟨p, hp, hpayload⟩ := readRaw_of_skip hpending hskip'
    refine ⟨r₀, p :: payloads, hskip, .cons ⟨r₀', hp⟩ hpayloads, ?_⟩
    have hstart : sighting.lead = r₁.cursor.sliceFrom r₀.cursor.position := by
      simp only [sighting, Sighting.lead, hskip, finalState]
    rw [hlead, hpayload, hrest, ← hstart, List.zipWith_cons_cons, List.flatten_cons,
      List.append_assoc]

/-- The tags that a reader gives do not depend on what becomes of the payloads. Any two callers of a
reader see the same tags at the same places, and come to the end of the message, or both of them to
the same corrupt place. At the end of the message, the bytes of the tags and of the payloads behind
them, as they are read there, make up the message. -/
theorem walk_eq_walk {τ : Type} (message : Bytes) (caller₁ : Caller σ) (caller₂ : Caller τ) :
    caller₁.walk message = caller₂.walk message ∧
      (∀ e ∈ (caller₁.walk message).failure?, ∃ cause, e = .corrupt cause) ∧
      ((caller₁.walk message).failure? = none →
        ∃ payloads, List.Forall₂ (fun x p => ∃ r, readRaw x.reader = .ok p r)
            (caller₁.walk message).seen payloads ∧
          message = (List.zipWith (fun x p => x.lead ++ p) (caller₁.walk message).seen
            payloads).flatten) := by
  refine ⟨?_, fun e he => caller₁.failure_of_walkFrom he, fun hnone => ?_⟩
  · rw [walk, walk, caller₁.walkFrom_eq_idle, caller₂.walkFrom_eq_idle]
  · obtain ⟨r₀, payloads, hskip, hpayloads, hrest⟩ := caller₁.rest_of_walkFrom hnone
    rw [skip_of_not_pending rfl] at hskip
    cases hskip
    exact ⟨payloads, hpayloads, hrest⟩

end Caller

end Reader

end WireColumns
