import WireColumns.Proofs.Wire.Elements
import WireColumns.Wire.Cursor
import WireColumns.Wire.Field
import WireColumns.Wire.Value

/-! # Reading looks at nothing but what it takes

A read that gives a value gives the same one for the bytes it took, whatever follows them
(`Read.Local`). Hence no shorter part of these bytes can be read (`Read.Local.not_ok_of_shorter`),
and tags and payloads are cut out of the input as they stand there (`Read.header_eq_ok`,
`Read.payload_eq_ok`). A cursor moves by the bytes that are taken (`Cursor.position_moveTo`). -/

namespace WireColumns

namespace Read

variable {α β : Type} {r : Read α} {s p rest : Bytes} {a : α}

/-- What the read takes off the front it takes whatever follows. -/
def Local (r : Read α) : Prop :=
  ∀ ⦃s : Bytes⦄ ⦃a : α⦄ ⦃rest : Bytes⦄, r s = .ok a rest → ∃ p, s = p ++ rest ∧ Reads r p a

theorem Local.reads (hr : Local r) (h : r s = .ok a rest) (hs : s = p ++ rest) : Reads r p a := by
  obtain ⟨q, hq, hreads⟩ := hr h
  obtain rfl : p = q := List.append_cancel_right (hs.symm.trans hq)
  exact hreads

/-- A part of what a read takes is too little for it. -/
theorem Local.not_ok_of_shorter (hr : Local r) (h : Reads r p a) {q : Bytes} (hq : q <+: p)
    (hne : q ≠ p) (b : α) (rest : Bytes) : r q ≠ .ok b rest := by
  intro hread
  obtain ⟨front, hfront, hreads⟩ := hr hread
  obtain ⟨t, rfl⟩ := hq
  have hp := h []
  rw [List.append_nil, hfront, List.append_assoc, hreads] at hp
  injection hp with _ hnil
  obtain ⟨-, rfl⟩ := List.append_eq_nil_iff.1 hnil
  exact hne (List.append_nil q).symm

theorem Local.map (hr : Local r) (f : α → β) : Local (f <$> r) := by
  intro s b rest h
  obtain ⟨a, ha, rfl⟩ := map_eq_ok_iff.1 h
  obtain ⟨p, hp, hreads⟩ := hr ha
  exact ⟨p, hp, hreads.map f⟩

/-! ## Tags and payloads -/

/-- The bytes of a tag are those in front of what is left. -/
theorem header_eq_ok {lead : Bytes} {tag : Tag} (h : header s = .ok (lead, tag) rest) :
    s = lead ++ rest ∧ Reads header lead (lead, tag) := by
  obtain ⟨hs, hlead⟩ := header_eq_ok_iff.1 h
  exact ⟨hs, hlead.reads⟩

theorem flatPayload_eq_ok {wire : WireType} (h : flatPayload wire s = .ok p rest) :
    s = p ++ rest ∧ Reads (flatPayload wire) p p := by
  by_cases hstart : wire = .startGroup
  · subst hstart
    cases h
    exact ⟨rfl, fun other => rfl⟩
  · by_cases hend : wire = .endGroup
    · subst hend
      cases h
      exact ⟨rfl, fun other => rfl⟩
    · obtain ⟨hs, hflat⟩ := (flatPayload_eq_ok_iff hstart hend).1 h
      exact ⟨hs, hflat.reads⟩

theorem closeGroup_local {depth : Nat} {seen : Bytes} {parts : Bytes × Bytes}
    (h : closeGroup depth seen s = .ok parts rest) :
    ∃ p, s = p ++ rest ∧ ∀ other, closeGroup depth seen (p ++ other) = .ok parts other := by
  fun_induction closeGroup depth seen s with
  | case1 | case2 | case4 => cases h
  | case3 depth seen s _ lead tag afterTag hhead hend =>
    obtain ⟨rfl, hlead⟩ := header_eq_ok hhead
    cases h
    obtain ⟨hwire, rfl⟩ := hend
    exact ⟨lead, rfl, closeGroup_end hlead hwire seen⟩
  | case5 depth seen s _ lead tag afterTag hhead hend payload rest' hpay ih =>
    obtain ⟨rfl, hlead⟩ := header_eq_ok hhead
    obtain ⟨rfl, hpayload⟩ := flatPayload_eq_ok hpay
    obtain ⟨p, rfl, hp⟩ := ih h
    refine ⟨lead ++ payload ++ p, by simp only [List.append_assoc], fun other => ?_⟩
    rw [List.append_assoc, closeGroup_tag hlead hpayload depth hend, ← hp other]
    rw [List.reverseAux_eq, List.reverseAux_eq, List.reverse_append, List.append_assoc]

/-- A group is its contents and the tag that closes it. -/
theorem closeGroup_eq_ok {depth : Nat} {seen contents closing : Bytes}
    (h : closeGroup depth seen s = .ok (contents, closing) rest) :
    seen.reverse ++ s = contents ++ closing ++ rest := by
  fun_induction closeGroup depth seen s with
  | case1 | case2 | case4 => cases h
  | case3 depth seen s _ lead tag afterTag hhead hend =>
    obtain ⟨rfl, -⟩ := header_eq_ok hhead
    cases h
    exact (List.append_assoc ..).symm
  | case5 depth seen s _ lead tag afterTag hhead hend payload rest' hpay ih =>
    obtain ⟨rfl, -⟩ := header_eq_ok hhead
    obtain ⟨rfl, -⟩ := flatPayload_eq_ok hpay
    rw [← ih h]
    simp [List.reverseAux_eq]

theorem groupParts_local : Local groupParts := fun _ _ _ h => closeGroup_local h

theorem payload_eq_flatPayload {wire : WireType} (h : wire ≠ .startGroup) :
    payload wire = flatPayload wire := by
  cases wire with
  | startGroup => exact absurd rfl h
  | varint | fixed64 | fixed32 | lengthDelimited | endGroup => rfl

theorem payload_local (wire : WireType) : Local (payload wire) := by
  by_cases hw : wire = .startGroup
  · subst hw
    exact groupParts_local.map _
  · rw [payload_eq_flatPayload hw]
    exact fun _ _ _ h => ⟨_, flatPayload_eq_ok h⟩

/-- A payload is what stands in front of what is left. -/
theorem payload_eq_ok {wire : WireType} (h : payload wire s = .ok p rest) :
    s = p ++ rest ∧ Reads (payload wire) p p := by
  by_cases hw : wire = .startGroup
  · subst hw
    obtain ⟨⟨contents, closing⟩, hparts, rfl⟩ := map_eq_ok_iff.1 h
    have hs : s = contents ++ closing ++ rest := closeGroup_eq_ok hparts
    exact ⟨hs, (payload_local .startGroup).reads h hs⟩
  · rw [payload_eq_flatPayload hw] at h ⊢
    exact flatPayload_eq_ok h

/-! ## Reading in place

A payload that is read where it stands, with other bytes behind it, is read as it is by itself, also
if it is refused. -/

theorem varint_eval_of_payload (h : payload .varint s = .ok p rest) :
    varint.eval s = varint.eval p := by
  have hflat : flatPayload .varint s = .ok p rest := h
  obtain ⟨rfl, hp⟩ := (flatPayload_eq_ok_iff (by decide) (by decide)).1 hflat
  cases hp with
  | varint hnumber _ =>
    rw [eval, eval, varint, varint, Varint.decode_number hnumber]
    cases Varint.decode p <;> rfl

theorem exactly_eval_of_ok {n : Nat} {cause : Corruption} (h : exactly n cause s = .ok p rest) :
    (exactly n cause).eval s = (exactly n cause).eval p := by
  obtain ⟨-, rfl⟩ := exactly_eq_ok_iff.1 h
  rw [(reads_exactly p cause).eval, eval, h]

theorem delimitedParts_eval_of_payload (h : payload .lengthDelimited s = .ok p rest) :
    delimitedParts.eval s = delimitedParts.eval p := by
  have hflat : flatPayload .lengthDelimited s = .ok p rest := h
  obtain ⟨rfl, hp⟩ := (flatPayload_eq_ok_iff (by decide) (by decide)).1 hflat
  cases hp with
  | lengthDelimited hlead =>
    have hreads : Reads delimitedParts _ _ := fun rest => delimitedParts_eq_ok_iff.2 ⟨rfl, hlead⟩
    rw [hreads.eval, eval, hreads]

theorem groupParts_eval_of_payload (h : payload .startGroup s = .ok p rest) :
    groupParts.eval s = groupParts.eval p := by
  obtain ⟨⟨contents, closing⟩, hparts, rfl⟩ := map_eq_ok_iff.1 h
  have hs : s = contents ++ closing ++ rest := closeGroup_eq_ok hparts
  rw [(groupParts_local.reads hparts hs).eval, eval, hparts]

theorem lengthDelimited_eval_of_payload (h : payload .lengthDelimited s = .ok p rest) :
    lengthDelimited.eval s = lengthDelimited.eval p := by
  rw [lengthDelimited, eval_map, eval_map, delimitedParts_eval_of_payload h]

theorem group_eval_of_payload (h : payload .startGroup s = .ok p rest) :
    group.eval s = group.eval p := by
  rw [group, eval_map, eval_map, groupParts_eval_of_payload h]

end Read

open Read in
theorem FieldKind.eval_of_payload {kind : FieldKind} {s p rest : Bytes}
    (h : payload kind.wireType s = .ok p rest) : kind.read.eval s = kind.read.eval p := by
  cases kind with
  | double | fixed64 | sfixed64 | float | fixed32 | sfixed32 =>
    simp only [read, Read.fixed64, Read.fixed32, eval_map]
    rw [exactly_eval_of_ok h]
  | string | bytes | message =>
    simp only [read]
    rw [eval_map, eval_map, lengthDelimited_eval_of_payload h]
  | group =>
    simp only [read]
    rw [eval_map, eval_map, group_eval_of_payload h]
  | _ =>
    simp only [read]
    rw [eval_map, eval_map, varint_eval_of_payload h]

/-! ## Positions -/

namespace Cursor

variable {c : Cursor} {p rest : Bytes}

theorem isAtEnd_iff : c.isAtEnd = true ↔ c.rest = [] := by
  rw [isAtEnd, decide_eq_true_iff, rest, List.drop_eq_nil_iff]

/-- The cursor moves by the bytes that are taken. -/
theorem position_moveTo (h : c.rest = p ++ rest) :
    (c.moveTo (c.buffer.length - rest.length)).position = c.position + p.length := by
  have hlength := congrArg List.length h
  rw [Cursor.rest, List.length_drop, List.length_append] at hlength
  have := c.position_le
  change min _ _ = _
  omega

theorem rest_moveTo (h : c.rest = p ++ rest) :
    (c.moveTo (c.buffer.length - rest.length)).rest = rest := by
  rw [Cursor.rest, position_moveTo h, ← List.drop_drop]
  change (c.rest).drop p.length = rest
  rw [h, List.drop_left]

/-- The bytes that are taken stand in front of the new position. -/
theorem sliceFrom_moveTo (h : c.rest = p ++ rest) :
    (c.moveTo (c.buffer.length - rest.length)).sliceFrom c.position = p := by
  rw [sliceFrom, position_moveTo h, Nat.min_eq_left (Nat.le_add_right ..), List.drop_take,
    Nat.add_sub_cancel_left]
  change (c.rest).take p.length = p
  rw [h, List.take_left]

theorem run_eq_ok_iff {α : Type} {read : Read α} {a : α} {c' : Cursor} :
    c.run read = (.ok a, c') ↔
      ∃ rest, read c.rest = .ok a rest ∧ c' = c.moveTo (c.buffer.length - rest.length) := by
  rw [run]
  cases read c.rest <;> simp [eq_comm]

theorem run_eq_error_iff {α : Type} {read : Read α} {e : Corruption} {c' : Cursor} :
    c.run read = (.error e, c') ↔
      ∃ rest, read c.rest = .error e rest ∧ c' = c.moveTo (c.buffer.length - rest.length) := by
  rw [run]
  cases read c.rest <;> simp [eq_comm]

end Cursor

end WireColumns
