import WireColumns.Proofs.Wire.Exactness
import WireColumns.Proofs.Wire.Grammar
import WireColumns.Proofs.Wire.Payloads
import WireColumns.Proofs.Wire.Visit

/-! # Reading and skipping a payload

What a kind reads as a value can be skipped, and what can be skipped can be read, up to the same
byte (`FieldKind.payload_of_read`, `FieldKind.read_of_payload`). There is one exception: of a varint
only the width is looked at where it is skipped, so that one that is too large
(`Varint.IsTooLarge`) is skipped but not read.

However a read ends, what it leaves is an end of its input (`Read.LeavesEnd`). So a cursor moves
over bytes of its buffer, never back and never past the last one (`Cursor.MovesOver`). -/

namespace WireColumns

/-- The number at the start of the input has ten bytes, and more than one bit in the last. -/
structure Varint.IsTooLarge (s : Bytes) : Prop where
  findIdx?_eq : s.findIdx? (· < 0x80) = some 9
  two_le : 2 ≤ s.getD 9 0
  le_127 : s.getD 9 0 ≤ 127

/-- A cursor goes to another place in its buffer, and what lies between is the given bytes. -/
structure Cursor.MovesOver (c c' : Cursor) (taken : Bytes) : Prop where
  buffer_eq : c'.buffer = c.buffer
  position_eq : c'.position = c.position + taken.length
  rest_eq : c.rest = taken ++ c'.rest

/-! ## Varints -/

namespace Varint

variable {s : Bytes}

theorem IsTooLarge.decode_eq (h : IsTooLarge s) : decode s = .error .varintOverflow := by
  cases hdecode : decode s with
  | ok vn =>
    obtain ⟨v, n⟩ := vn
    obtain ⟨p, rest, hs, hp, hn⟩ := decode_eq_ok_iff.1 hdecode
    obtain ⟨hpos, hfind⟩ := exists_isNumber_iff.1 ⟨p, rest, hs, hp.isNumber, hn⟩
    have hlast : n - 1 = 9 := Option.some.inj (hfind.symm.trans h.findIdx?_eq)
    obtain rfl : n = 10 := by omega
    exact absurd (UInt8.le_trans h.two_le (getD_nine_le_one hdecode)) (by decide)
  | error cause =>
    obtain ⟨hlength, -⟩ := List.findIdx?_eq_some_iff_getElem.1 h.findIdx?_eq
    rw [decode_eq_error hdecode, if_neg]
    unfold maxWidth
    omega

theorem decode_of_width {n : Nat} (h : width s = .ok n) (hfit : ¬ IsTooLarge s) :
    ∃ v, decode s = .ok (v, n) := by
  rcases width_eq_ok_iff_decode.1 h with hdecode | ⟨-, hfind, htwo, hle⟩
  · exact hdecode
  · exact absurd ⟨hfind, htwo, hle⟩ hfit

end Varint

/-! ## From payloads to what they hold -/

namespace Read

variable {α β : Type} {s p rest : Bytes}

theorem varint_of_isTooLarge (h : Varint.IsTooLarge s) :
    varint s = .error .varintOverflow s := by
  rw [varint, h.decode_eq]

theorem varint_of_payload (h : payload .varint s = .ok p rest) (hfit : ¬ Varint.IsTooLarge s) :
    ∃ v, varint s = .ok v rest := by
  change rawVarint s = .ok p rest at h
  rw [rawVarint] at h
  split at h
  next width hwidth =>
    cases h
    obtain ⟨v, hv⟩ := Varint.decode_of_width hwidth hfit
    exact ⟨v, by rw [varint, hv]⟩
  next => cases h

/-- What has been taken is turned into a value without taking more. -/
theorem exists_map_eq_ok {r : Read α} {a : α} (h : r s = .ok a rest) (f : α → β) :
    ∃ b, (f <$> r) s = .ok b rest :=
  ⟨_, map_eq_ok_iff.2 ⟨a, h, rfl⟩⟩

theorem lengthDelimited_of_payload (h : payload .lengthDelimited s = .ok p rest) :
    ∃ data, lengthDelimited s = .ok data rest := by
  obtain ⟨parts, hparts, -⟩ := map_eq_ok_iff.1 h
  exact ⟨_, map_eq_ok_iff.2 ⟨parts, hparts, rfl⟩⟩

theorem group_of_payload (h : payload .startGroup s = .ok p rest) :
    ∃ contents, group s = .ok contents rest := by
  obtain ⟨parts, hparts, -⟩ := map_eq_ok_iff.1 h
  exact ⟨_, map_eq_ok_iff.2 ⟨parts, hparts, rfl⟩⟩

/-! ## What is left -/

/-- However the read ends, it leaves an end of its input. -/
def LeavesEnd (r : Read α) : Prop := ∀ s, finalState (r s) <:+ s

theorem LeavesEnd.map {r : Read α} (h : LeavesEnd r) (f : α → β) : LeavesEnd (f <$> r) := by
  intro s
  have hs := h s
  simp only [Functor.map, EStateM.map]
  cases hr : r s with
  | ok a rest | error e rest =>
    rw [hr] at hs
    exact hs

theorem varint_leavesEnd : LeavesEnd varint := by
  intro s
  rw [varint]
  split
  · exact List.drop_suffix ..
  · exact List.suffix_rfl

theorem exactly_leavesEnd (n : Nat) (cause : Corruption) : LeavesEnd (exactly n cause) := by
  intro s
  rw [exactly]
  split
  next front rest hsplit =>
    obtain ⟨-, rfl⟩ := Bytes.splitExact?_eq_some_iff.1 hsplit
    exact List.suffix_append ..
  next => exact List.suffix_rfl

theorem header_leavesEnd : LeavesEnd header := by
  intro s
  rw [header]
  split
  · exact List.suffix_rfl
  · split <;> exact List.drop_suffix ..

/-- The prefix of a byte string that is too short has been taken. -/
theorem delimitedParts_leavesEnd : LeavesEnd delimitedParts := by
  intro s
  rw [delimitedParts]
  split
  next => exact List.suffix_rfl
  next =>
    split
    next data rest hsplit =>
      obtain ⟨-, hdrop⟩ := Bytes.splitExact?_eq_some_iff.1 hsplit
      exact List.suffix_append data rest |>.trans (hdrop ▸ List.drop_suffix ..)
    next => exact List.drop_suffix ..

theorem rawVarint_leavesEnd : LeavesEnd rawVarint := by
  intro s
  rw [rawVarint]
  split
  · exact List.drop_suffix ..
  · exact List.suffix_rfl

theorem flatPayload_leavesEnd (wire : WireType) : LeavesEnd (flatPayload wire) := by
  cases wire with
  | varint => exact rawVarint_leavesEnd
  | fixed64 | fixed32 => exact exactly_leavesEnd _ _
  | lengthDelimited => exact delimitedParts_leavesEnd.map _
  | startGroup | endGroup => exact fun s => List.suffix_rfl

theorem closeGroup_leavesEnd (depth : Nat) (seen s : Bytes) :
    finalState (closeGroup depth seen s) <:+ s := by
  fun_induction closeGroup depth seen s with
  | case1 => exact List.suffix_rfl
  | case2 depth seen s _ e rest hhead =>
    have hs := header_leavesEnd s
    rwa [hhead] at hs
  | case3 depth seen s _ lead tag afterTag hhead =>
    have hs := header_leavesEnd s
    rwa [hhead] at hs
  | case4 depth seen s _ lead tag afterTag hhead _ e rest hpay =>
    have hs := header_leavesEnd s
    have hpayload := flatPayload_leavesEnd tag.wire afterTag
    rw [hhead] at hs
    rw [hpay] at hpayload
    exact hpayload.trans hs
  | case5 depth seen s _ lead tag afterTag hhead _ payload rest hpay ih =>
    have hs := header_leavesEnd s
    have hpayload := flatPayload_leavesEnd tag.wire afterTag
    rw [hhead] at hs
    rw [hpay] at hpayload
    exact ih.trans (hpayload.trans hs)

theorem groupParts_leavesEnd : LeavesEnd groupParts := closeGroup_leavesEnd 0 []

theorem payload_leavesEnd (wire : WireType) : LeavesEnd (payload wire) := by
  by_cases hw : wire = .startGroup
  · subst hw
    exact groupParts_leavesEnd.map _
  · rw [payload_eq_flatPayload hw]
    exact flatPayload_leavesEnd wire

end Read

open Read

/-! ## Values -/

namespace FieldKind

variable {kind : FieldKind} {s p rest : Bytes}

theorem read_leavesEnd (kind : FieldKind) : LeavesEnd kind.read := by
  cases kind with
  | double | fixed64 | sfixed64 | float | fixed32 | sfixed32 =>
    exact ((exactly_leavesEnd _ _).map _).map _
  | string | bytes | message => exact (delimitedParts_leavesEnd.map _).map _
  | group => exact (groupParts_leavesEnd.map _).map _
  | _ => exact varint_leavesEnd.map _

/-- What can be skipped can be read, and nothing else is taken then, unless it is a varint that is
too large. -/
theorem read_of_payload (h : payload kind.wireType s = .ok p rest)
    (hfit : ¬ (kind.wireType = .varint ∧ Varint.IsTooLarge s)) : ∃ v, kind.read s = .ok v rest := by
  cases kind with
  | double | fixed64 | sfixed64 | float | fixed32 | sfixed32 =>
    obtain ⟨v, hv⟩ := exists_map_eq_ok h _
    exact exists_map_eq_ok hv _
  | string | bytes | message =>
    obtain ⟨data, hdata⟩ := lengthDelimited_of_payload h
    exact exists_map_eq_ok hdata _
  | group =>
    obtain ⟨contents, hcontents⟩ := group_of_payload h
    exact exists_map_eq_ok hcontents _
  | _ =>
    obtain ⟨v, hv⟩ := varint_of_payload h fun hlarge => hfit ⟨rfl, hlarge⟩
    exact exists_map_eq_ok hv _

/-- A varint that is too large is refused, and stays where it is. -/
theorem read_of_isTooLarge (hkind : kind.wireType = .varint) (h : Varint.IsTooLarge s) :
    kind.read s = .error .varintOverflow s := by
  have hvarint := varint_of_isTooLarge h
  cases kind with
  | double | fixed64 | sfixed64 | float | fixed32 | sfixed32 | string | bytes | message | group =>
    cases hkind
  | _ => exact map_eq_error_iff.2 hvarint

end FieldKind

/-! ## Cursors -/

namespace Cursor

variable {α : Type} {c c' : Cursor}

/-- A read moves a cursor over the bytes that it takes, whether or not it succeeds. -/
theorem run_movesOver {read : Read α} (hread : LeavesEnd read) {outcome : Except Corruption α}
    (h : c.run read = (outcome, c')) : ∃ taken, c.MovesOver c' taken := by
  obtain ⟨taken, htaken⟩ := hread c.rest
  have hmove : c' = c.moveTo (c.buffer.length - (finalState (read c.rest)).length) := by
    rw [run] at h
    cases hr : read c.rest with
    | ok a rest | error e rest =>
      rw [hr] at h
      exact (Prod.mk.inj h).2.symm
  subst hmove
  exact ⟨taken, rfl, position_moveTo htaken.symm, by rw [rest_moveTo htaken.symm, htaken]⟩

theorem run_payload_of_run_read {kind : FieldKind} {v : Value}
    (h : c.run kind.read = (.ok v, c')) :
    v.type = kind.valueType ∧ ∃ p, c.run (payload kind.wireType) = (.ok p, c') := by
  obtain ⟨rest, hread, rfl⟩ := run_eq_ok_iff.1 h
  obtain ⟨p, hp⟩ := FieldKind.payload_of_read hread
  exact ⟨FieldKind.type_of_read hread, p, run_eq_ok_iff.2 ⟨rest, hp, rfl⟩⟩

theorem run_read_of_run_payload {kind : FieldKind} {p : Bytes}
    (h : c.run (payload kind.wireType) = (.ok p, c'))
    (hfit : ¬ (kind.wireType = .varint ∧ Varint.IsTooLarge c.rest)) :
    ∃ v, c.run kind.read = (.ok v, c') := by
  obtain ⟨rest, hp, rfl⟩ := run_eq_ok_iff.1 h
  obtain ⟨v, hv⟩ := FieldKind.read_of_payload hp hfit
  exact ⟨v, run_eq_ok_iff.2 ⟨rest, hv, rfl⟩⟩

theorem run_read_of_isTooLarge {kind : FieldKind} (hkind : kind.wireType = .varint)
    (h : Varint.IsTooLarge c.rest) : c.run kind.read = (.error .varintOverflow, c) :=
  run_eq_error_iff.2 ⟨c.rest, FieldKind.read_of_isTooLarge hkind h, (moveTo_length_rest rfl).symm⟩

/-- Reading a value and skipping its payload end at the same byte. Where the value of a kind is
read, which is one of the kind's value type, the payload can be skipped; where the payload can be
skipped the value is read, unless it is a varint of ten bytes whose last one is too large, which is
refused where it stands. However they end, both move the cursor forward over bytes of the
buffer. -/
theorem read_and_skip_agree (kind : FieldKind) (c : Cursor) :
    (∀ v c', c.run kind.read = (.ok v, c') →
      v.type = kind.valueType ∧ ∃ p, c.run (payload kind.wireType) = (.ok p, c')) ∧
    (∀ p c', c.run (payload kind.wireType) = (.ok p, c') →
      ((∃ v, c.run kind.read = (.ok v, c')) ↔
        ¬ (kind.wireType = .varint ∧ Varint.IsTooLarge c.rest))) ∧
    (kind.wireType = .varint ∧ Varint.IsTooLarge c.rest →
      c.run kind.read = (.error .varintOverflow, c)) ∧
    (∀ outcome c', c.run kind.read = (outcome, c') → ∃ taken, c.MovesOver c' taken) ∧
    ∀ outcome c', c.run (payload kind.wireType) = (outcome, c') →
      ∃ taken, c.MovesOver c' taken := by
  refine ⟨fun v c' => run_payload_of_run_read, fun p c' hskip => ?_,
    fun hlarge => run_read_of_isTooLarge hlarge.1 hlarge.2,
    fun outcome c' => run_movesOver kind.read_leavesEnd,
    fun outcome c' => run_movesOver (payload_leavesEnd _)⟩
  constructor
  · rintro ⟨v, hread⟩ hlarge
    cases hread.symm.trans (run_read_of_isTooLarge hlarge.1 hlarge.2)
  · exact run_read_of_run_payload hskip

/-- A number with a bit too many in its tenth byte. -/
example :
    let c := start [0xff, 0xff, 0xff, 0xff, 0xff, 0xff, 0xff, 0xff, 0xff, 0x02, 0x07]
    (c.run FieldKind.int32.read).2.position = 0 ∧
      (c.run (payload FieldKind.int32.wireType)).2.position = 10 := by
  decide

end Cursor

end WireColumns
