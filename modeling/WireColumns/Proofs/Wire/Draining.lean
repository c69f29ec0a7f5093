import WireColumns.Proofs.Wire.Locality
import WireColumns.Proofs.Wire.Payloads

/-! # Draining a packed run

A packed run is asked for one value after the other. What it answers, however often it is asked, is
first some items and then nothing (`PackedRun.DrainsTo`). The items are the values of encodings that
stand one after the other at the start of the payload (`PackedRun.IsRun`), as far as there are any,
and behind them the reason why reading stops if that is not the end (`PackedRun.StopsAt`).

Reading all values at once gives the same items (`PackedRun.exists_readFrom_eq`). No other encodings
get further (`PackedRun.IsRun.isPrefix_of_stopsAt`): a value is read in one way only, whatever
follows it (`FieldKind.read_local`). -/

namespace WireColumns

open Read

/-! ## Single values -/

namespace Read

variable {α β : Type}

/-- A read that fails takes nothing. -/
def KeepsInput (r : Read α) : Prop :=
  ∀ ⦃s : Bytes⦄ ⦃e : Corruption⦄ ⦃rest : Bytes⦄, r s = .error e rest → rest = s

theorem KeepsInput.map {r : Read α} (hr : KeepsInput r) (f : α → β) : KeepsInput (f <$> r) :=
  fun _ _ _ h => hr (map_eq_error_iff.1 h)

theorem varint_keepsInput : KeepsInput varint := by
  intro s e rest h
  rw [varint] at h
  split at h <;> cases h
  rfl

theorem exactly_keepsInput (n : Nat) (cause : Corruption) : KeepsInput (exactly n cause) := by
  intro s e rest h
  rw [exactly] at h
  split at h <;> cases h
  rfl

end Read

namespace FieldKind

/-- A value is read in the same way whatever follows it. -/
theorem read_local (kind : FieldKind) : Local kind.read := by
  intro s v rest h
  obtain ⟨p, hp⟩ := payload_of_read h
  obtain ⟨hs, hreads⟩ := payload_eq_ok hp
  refine ⟨p, hs, fun other => ?_⟩
  have heval : kind.read.eval (p ++ other) = .ok v := by
    rw [eval_of_payload (hreads other), ← eval_of_payload hp, eval, h]
  rw [eval] at heval
  split at heval
  next hread =>
    -- reading and skipping end at the same byte, and what is skipped is `p`
    obtain ⟨q, hq⟩ := payload_of_read hread
    cases heval
    cases (hreads other).symm.trans hq
    exact hread
  next => cases heval

/-- Of a value that cannot be read nothing is taken, unless it is a byte string or a group. -/
theorem read_keepsInput {kind : FieldKind} (hkind : kind.isPackable = true) :
    KeepsInput kind.read := by
  cases kind with
  | string | bytes | message | group => cases hkind
  | double | fixed64 | sfixed64 | float | fixed32 | sfixed32 =>
    exact ((exactly_keepsInput _ _).map _).map _
  | _ => exact varint_keepsInput.map _

end FieldKind

/-- The values and what ended them, in the order in which a run gives them. -/
def Reading.items (reading : Reading) : List (Except Corruption Value) :=
  reading.values.map .ok ++ (reading.failure?.map .error).toList

namespace PackedRun

/-! ## Asking a run -/

/-- Asks for the next item. A run that has none stays as it is. -/
def ask (run : PackedRun) : Option (Except Corruption Value) × PackedRun :=
  match run.next? with
  | some (item, run) => (some item, run)
  | none => (none, run)

/-- The answers when the run is asked a number of times. -/
def answers : Nat → PackedRun → List (Option (Except Corruption Value))
  | 0, _ => []
  | n + 1, run => run.ask.1 :: answers n run.ask.2

/-- The run gives these items and, however often it is asked then, nothing more. -/
def DrainsTo (run : PackedRun) (items : List (Except Corruption Value)) : Prop :=
  ∀ further, answers (items.length + further) run =
    items.map some ++ List.replicate further none

/-- The encodings stand one after the other in front of `rest`, and each is read as the value at its
place, up to the start of the next. -/
inductive IsRun (kind : FieldKind) (rest : Bytes) : List Bytes → List Value → Prop
  | nil : IsRun kind rest [] []
  | cons {encoding : Bytes} {encodings : List Bytes} {value : Value} {values : List Value} :
      kind.read (encoding ++ (encodings.flatten ++ rest)) =
        .ok value (encodings.flatten ++ rest) →
      IsRun kind rest encodings values → IsRun kind rest (encoding :: encodings) (value :: values)

/-- No value can be read here: it is the end, or the read is refused. -/
inductive StopsAt (kind : FieldKind) : Bytes → Option Corruption → Prop
  | atEnd : StopsAt kind [] none
  | refused {rest left : Bytes} {e : Corruption} : rest ≠ [] → kind.read rest = .error e left →
      StopsAt kind rest (some e)

variable {run run' : PackedRun} {item : Except Corruption Value}
  {items items' : List (Except Corruption Value)} {kind : FieldKind} {s rest rest' : Bytes}
  {encodings encodings' : List Bytes} {value : Value} {values values' : List Value}
  {failure? : Option Corruption}

theorem DrainsTo.nil (h : run.next? = none) : run.DrainsTo [] := by
  have hask : run.ask = (none, run) := by rw [ask, h]
  intro further
  rw [List.length_nil, Nat.zero_add, List.map_nil, List.nil_append]
  induction further with
  | zero => rfl
  | succ further ih => rw [answers, hask, ih, List.replicate_succ]

theorem DrainsTo.cons (h : run.next? = some (item, run')) (hrest : run'.DrainsTo items) :
    run.DrainsTo (item :: items) := by
  have hask : run.ask = (some item, run') := by rw [ask, h]
  intro further
  rw [List.length_cons, Nat.add_right_comm, answers, hask, hrest further, List.map_cons,
    List.cons_append]

/-- A run is drained in one way only. -/
theorem DrainsTo.unique (h : run.DrainsTo items) (h' : run.DrainsTo items') : items = items' := by
  have hanswers := (h items'.length).symm.trans (Nat.add_comm .. ▸ h' items.length)
  simpa [List.reduceOption] using congrArg List.reduceOption hanswers

/-! ## Encodings one after the other -/

theorem next?_of_read (h : kind.read s = .ok value rest) :
    next? ⟨kind, s, false⟩ = some (.ok value, ⟨kind, rest, false⟩) := by
  have hne : s ≠ [] := by
    rintro rfl
    exact Nat.not_lt_zero _ (kind.read_advances h)
  rw [next?, if_neg (by simp [hne])]
  dsimp only
  rw [h]

theorem StopsAt.read_ne_ok (h : StopsAt kind s failure?) : kind.read s ≠ .ok value rest := by
  intro hread
  cases h with
  | atEnd => exact Nat.not_lt_zero _ (kind.read_advances hread)
  | refused _ herror => cases herror.symm.trans hread

/-- Where no value can be read the reason is given once, whatever bytes are left. -/
theorem StopsAt.drainsTo (h : StopsAt kind s failure?) :
    DrainsTo ⟨kind, s, false⟩ (failure?.map .error).toList := by
  cases h with
  | atEnd => exact .nil (by simp [next?])
  | @refused _ left e hne herror =>
    have hnext : next? ⟨kind, s, false⟩ = some (.error e, ⟨kind, left, true⟩) := by
      rw [next?, if_neg (by simp [hne])]
      dsimp only
      rw [herror]
    exact .cons hnext (.nil (by simp [next?]))

theorem IsRun.drainsTo_append (h : IsRun kind rest encodings values)
    (hrest : DrainsTo ⟨kind, rest, false⟩ items) :
    DrainsTo ⟨kind, encodings.flatten ++ rest, false⟩ (values.map .ok ++ items) := by
  induction h with
  | nil => exact hrest
  | cons hread _ ih =>
    rw [List.flatten_cons, List.append_assoc]
    exact .cons (next?_of_read hread) ih

/-- No encoding is empty. -/
theorem IsRun.length_le (h : IsRun kind rest encodings values) :
    values.length ≤ encodings.flatten.length := by
  induction h with
  | nil => exact Nat.le_refl 0
  | cons hread _ ih =>
    have hshorter := kind.read_advances hread
    simp only [List.flatten_cons, List.length_append, List.length_cons] at hshorter ⊢
    omega

theorem StopsAt.length_le (h : StopsAt kind rest failure?) :
    failure?.toList.length ≤ rest.length := by
  cases h with
  | atEnd => exact Nat.le_refl 0
  | refused hne _ => exact List.length_pos_iff.2 hne

/-- Whatever follows the encodings, they are read as the same values. -/
theorem IsRun.in_front_of (h : IsRun kind rest encodings values) (other : Bytes) :
    IsRun kind other encodings values := by
  induction h with
  | nil => exact .nil
  | cons hread _ ih => exact .cons (kind.read_local.reads hread rfl _) ih

/-- Encodings that end where no value can be read are all there are: any others are some of the
first of them. -/
theorem IsRun.isPrefix_of_stopsAt (h : IsRun kind rest encodings values)
    (hstop : StopsAt kind rest failure?) (h' : IsRun kind rest' encodings' values')
    (hs : encodings'.flatten ++ rest' = encodings.flatten ++ rest) :
    encodings' <+: encodings ∧ values' <+: values := by
  -- both start at the same byte, where only one value can be read, up to one place
  induction h' generalizing encodings values with
  | nil => constructor <;> exact List.nil_prefix
  | cons hread' _ ih =>
    rw [List.flatten_cons, List.append_assoc] at hs
    rw [hs] at hread'
    cases h with
    | nil => exact absurd hread' hstop.read_ne_ok
    | cons hread hrest =>
      rw [List.flatten_cons, List.append_assoc] at hs hread'
      obtain ⟨rfl, hrests⟩ := EStateM.Result.ok.inj (hread'.symm.trans hread)
      rw [hrests] at hs
      obtain rfl := List.append_cancel_right hs
      obtain ⟨hencodings, hvalues⟩ := ih hrest hrests
      exact ⟨List.cons_prefix_cons.2 ⟨rfl, hencodings⟩, List.cons_prefix_cons.2 ⟨rfl, hvalues⟩⟩

/-! ## Reading all values -/

/-- Values are read up to a place where none can be read. -/
theorem exists_readFrom_eq (kind : FieldKind) (seen : Array Value) (s : Bytes) :
    ∃ encodings values rest failure?, encodings.flatten ++ rest = s ∧
      IsRun kind rest encodings values ∧ StopsAt kind rest failure? ∧
      readFrom kind seen s = ⟨seen.toList ++ values, failure?⟩ := by
  fun_induction readFrom kind seen s with
  | case1 seen s hempty =>
    obtain rfl := List.isEmpty_iff.1 hempty
    exact ⟨[], [], [], none, rfl, .nil, .atEnd, by rw [List.append_nil]⟩
  | case2 seen s hempty value rest hread ih =>
    obtain ⟨encodings, values, tail, failure?, rfl, hrun, hstop, hreading⟩ := ih
    obtain ⟨encoding, rfl, -⟩ := kind.read_local hread
    refine ⟨encoding :: encodings, value :: values, tail, failure?, ?_, .cons hread hrun, hstop, ?_⟩
    · rw [List.flatten_cons, List.append_assoc]
    · rw [hreading]
      simp
  | case3 seen s hempty e left hread =>
    have hne : s ≠ [] := fun hnil => hempty (List.isEmpty_iff.2 hnil)
    exact ⟨[], [], s, some e, rfl, .nil, .refused hne hread, by rw [List.append_nil]⟩

/-- What a run gives one after the other is what is read of its payload at once. -/
theorem drainsTo_readPacked (kind : FieldKind) (payload : Bytes) :
    (ofPayload kind payload).DrainsTo (kind.readPacked payload).items := by
  obtain ⟨encodings, values, rest, failure?, rfl, hrun, hstop, hreading⟩ :=
    exists_readFrom_eq kind #[] payload
  rw [FieldKind.readPacked, hreading]
  exact hrun.drainsTo_append hstop.drainsTo

/-- A number of four bytes, and one that is cut off. -/
example : (FieldKind.sfixed32.readPacked [0x01, 0x00, 0x00, 0x00, 0x02, 0x00]).items =
    [.ok (.int32 1), .error .fixed32Truncated] := by
  cbv

theorem DrainsTo.length_le (h : (ofPayload kind s).DrainsTo items) : items.length ≤ s.length := by
  obtain ⟨encodings, values, rest, failure?, rfl, hrun, hstop, -⟩ := exists_readFrom_eq kind #[] s
  have hvalues := hrun.length_le
  have hfailure := hstop.length_le
  rw [h.unique (hrun.drainsTo_append hstop.drainsTo)]
  rw [Option.length_toList] at hfailure
  simp only [List.length_append, List.length_map, Option.length_toList, Option.isSome_map]
  omega

/-- A run gives nothing but values if and only if its payload is their encodings. -/
theorem drainsTo_map_ok_iff : (ofPayload kind s).DrainsTo (values.map .ok) ↔
    ∃ encodings, encodings.flatten = s ∧ IsRun kind [] encodings values := by
  constructor
  · intro h
    obtain ⟨encodings, values', rest, failure?, rfl, hrun, hstop, -⟩ :=
      exists_readFrom_eq kind #[] s
    have hitems := h.unique (hrun.drainsTo_append hstop.drainsTo)
    cases hstop with
    | atEnd =>
      rw [Option.map_none, Option.toList_none, List.append_nil] at hitems
      obtain rfl := List.map_injective_iff.2 (fun _ _ => Except.ok.inj) hitems
      exact ⟨encodings, (List.append_nil _).symm, hrun⟩
    | refused =>
      -- the last item is not a value
      have hlast := congrArg List.getLast? hitems
      simp at hlast
  · rintro ⟨encodings, rfl, hrun⟩
    have hdrains := hrun.drainsTo_append StopsAt.atEnd.drainsTo
    rwa [List.append_nil, Option.map_none, Option.toList_none, List.append_nil] at hdrains

/-- What a packed run in a payload gives is what is read of the payload at once, and not more items
than the payload has bytes. It gives just some values if and only if the payload is encodings of
these values, one after the other. Otherwise it gives the values of the longest such part at the
start of the payload, then once the reason why no value can be read behind it, and then nothing,
although the bytes there have not been taken. -/
theorem drains_exactly {kind : FieldKind} (hkind : kind.isPackable = true) (payload : Bytes) :
    (ofPayload kind payload).DrainsTo (kind.readPacked payload).items ∧
    (∀ items, (ofPayload kind payload).DrainsTo items → items.length ≤ payload.length) ∧
    (∀ values, (ofPayload kind payload).DrainsTo (values.map .ok) ↔
      ∃ encodings, encodings.flatten = payload ∧ IsRun kind [] encodings values) ∧
    ((¬ ∃ encodings values, encodings.flatten = payload ∧ IsRun kind [] encodings values) →
      ∃ encodings values rest e, encodings.flatten ++ rest = payload ∧
        IsRun kind rest encodings values ∧
        (∀ encodings' values' rest', encodings'.flatten <+: payload →
          IsRun kind rest' encodings' values' → encodings' <+: encodings ∧ values' <+: values) ∧
        rest ≠ [] ∧ kind.read rest = .error e rest ∧
        (ofPayload kind payload).DrainsTo (values.map .ok ++ [.error e])) := by
  refine ⟨drainsTo_readPacked kind payload, fun items => DrainsTo.length_le,
    fun values => drainsTo_map_ok_iff, fun hnone => ?_⟩
  obtain ⟨encodings, values, rest, failure?, rfl, hrun, hstop, -⟩ :=
    exists_readFrom_eq kind #[] payload
  have hmaximal : ∀ encodings' values' rest', encodings'.flatten <+: encodings.flatten ++ rest →
      IsRun kind rest' encodings' values' → encodings' <+: encodings ∧ values' <+: values := by
    rintro encodings' values' rest' ⟨other, hother⟩ hrun'
    exact hrun.isPrefix_of_stopsAt hstop (hrun'.in_front_of other) hother
  have hdrains := hrun.drainsTo_append hstop.drainsTo
  cases hstop with
  | atEnd => exact absurd ⟨encodings, values, (List.append_nil _).symm, hrun⟩ hnone
  | @refused _ left e hne herror =>
    obtain rfl := FieldKind.read_keepsInput hkind herror
    exact ⟨encodings, values, left, e, rfl, hrun, hmaximal, hne, herror, hdrains⟩

/-- Two numbers, the second of them longer than it need be, and one that is cut off. -/
theorem drains_exactly_cut_off :
    FieldKind.uint32.isPackable = true ∧
      (ofPayload .uint32 [0x96, 0x01, 0x80, 0x00, 0x80]).DrainsTo
        [.ok (.uint32 150), .ok (.uint32 0), .error .varintTruncated] ∧
      ∃ encodings values rest e, encodings.flatten ++ rest = [0x96, 0x01, 0x80, 0x00, 0x80] ∧
        IsRun .uint32 rest encodings values ∧ rest ≠ [] ∧
        FieldKind.uint32.read rest = .error e rest ∧
        (ofPayload .uint32 [0x96, 0x01, 0x80, 0x00, 0x80]).DrainsTo
          (values.map .ok ++ [.error e]) := by
  have hitems : (FieldKind.uint32.readPacked [0x96, 0x01, 0x80, 0x00, 0x80]).items =
      [.ok (.uint32 150), .ok (.uint32 0), .error .varintTruncated] := by cbv
  obtain ⟨hdrains, -, hvalues, hotherwise⟩ :=
    @drains_exactly .uint32 rfl [0x96, 0x01, 0x80, 0x00, 0x80]
  rw [hitems] at hdrains
  have hnone : ¬ ∃ encodings values, encodings.flatten = [0x96, 0x01, 0x80, 0x00, 0x80] ∧
      IsRun .uint32 [] encodings values := by
    rintro ⟨encodings, values, hrun⟩
    have hlast := congrArg List.getLast? (((hvalues values).2 ⟨encodings, hrun⟩).unique hdrains)
    simp at hlast
  obtain ⟨encodings, values, rest, e, hpayload, hrun, -, hrest⟩ := hotherwise hnone
  exact ⟨rfl, hdrains, encodings, values, rest, e, hpayload, hrun, hrest⟩

end PackedRun

end WireColumns
