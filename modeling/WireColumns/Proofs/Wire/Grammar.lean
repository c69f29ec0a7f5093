import WireColumns.Proofs.Wire.Framing

/-! # The grammar of fields and groups

A sequence of fields (`IsFields`) is a tag and its payload, over and over; the payload of a group is
a sequence of fields and a tag that closes the group, whatever its field number (`IsPayload`). The
reads count open groups instead of going down into them. They accept just what the grammar derives:
what is read as a group closes all groups inside it in turn (`ClosesGroups`), and fields leave the
number of open groups as it was (`IsFields.passes`). So a cursor behind the tag that opens a group
moves to the one place where the group can end (`Cursor.run_group`).

A walk that ends properly finds the occurrences that the grammar derives, and tags that close a
group besides (`Walk.ofMessage_eq_iff`). -/

namespace WireColumns

open Read

mutual

/-- A sequence of fields, each a tag and its payload. -/
inductive IsFields : Bytes → Prop
  | nil : IsFields []
  | cons {tag : Tag} {lead payload rest : Bytes} : EncodesTag lead tag →
      IsPayload tag.wire payload → IsFields rest → IsFields (lead ++ payload ++ rest)

/-- The payload behind a tag of the given wire type. A tag that closes a group has none. -/
inductive IsPayload : WireType → Bytes → Prop
  | flat {wire : WireType} {payload : Bytes} : IsFlat wire payload → IsPayload wire payload
  | group {contents closing : Bytes} {number : UInt32} : IsFields contents →
      EncodesTag closing ⟨number, .endGroup⟩ → IsPayload .startGroup (contents ++ closing)

end

/-- Bytes that close a number of groups, one after the other, and go on with fields. -/
def ClosesGroups : (depth : Nat) → Bytes → Prop
  | 0, s => IsFields s
  | depth + 1, s => ∃ contents closing number rest, s = contents ++ closing ++ rest ∧
      IsFields contents ∧ EncodesTag closing ⟨number, .endGroup⟩ ∧ ClosesGroups depth rest

/-! ## Groups -/

mutual

/-- Fields leave the open groups alone. -/
theorem IsFields.passes {s : Bytes} : IsFields s → Passes s
  | .nil => passes_nil
  | .cons hlead hpayload hrest => (hpayload.passes hlead).append hrest.passes

theorem IsPayload.passes {lead payload : Bytes} {number : UInt32} {wire : WireType} :
    IsPayload wire payload → EncodesTag lead ⟨number, wire⟩ → Passes (lead ++ payload)
  | .flat hflat, hlead => passes_flat hlead.reads hflat.reads hflat.ne_startGroup hflat.ne_endGroup
  | .group hcontents hclosing, hlead => passes_group hclosing.reads hcontents.passes hlead.reads

end

section

variable {s p lead contents closing rest : Bytes} {tag : Tag} {depth : Nat}

theorem ClosesGroups.cons (hlead : EncodesTag lead tag) (hpayload : IsPayload tag.wire p)
    (h : ClosesGroups depth s) : ClosesGroups depth (lead ++ p ++ s) := by
  cases depth with
  | zero => exact .cons hlead hpayload h
  | succ depth =>
    obtain ⟨contents, closing, number, rest, rfl, hcontents, hclosing, hrest⟩ := h
    refine ⟨lead ++ p ++ contents, closing, number, rest, ?_, .cons hlead hpayload hcontents,
      hclosing, hrest⟩
    simp only [List.append_assoc]

/-- What is read up to the tag that closes the outermost group closes all groups inside it. -/
theorem closesGroups_of_closeGroup {seen : Bytes}
    (h : closeGroup depth seen s = .ok (contents, closing) rest) :
    ∃ inside number, contents = seen.reverse ++ inside ∧ ClosesGroups depth inside ∧
      EncodesTag closing ⟨number, .endGroup⟩ := by
  fun_induction closeGroup depth seen s with
  | case1 | case2 | case4 => cases h
  | case3 depth seen s _ lead tag afterTag hhead hend =>
    obtain ⟨-, hlead⟩ := header_eq_ok_iff.1 hhead
    cases h
    obtain ⟨number, wire⟩ := tag
    obtain ⟨rfl, rfl⟩ := hend
    exact ⟨[], number, (List.append_nil _).symm, .nil, hlead⟩
  | case5 depth seen s _ lead tag afterTag hhead hend payload rest' hpay ih =>
    obtain ⟨-, hlead⟩ := header_eq_ok_iff.1 hhead
    obtain ⟨inside, number, rfl, hinside, hclosing⟩ := ih h
    have hseen : (payload.reverseAux (lead.reverseAux seen)).reverse ++ inside =
        seen.reverse ++ (lead ++ payload ++ inside) := by
      simp [List.reverseAux_eq]
    refine ⟨lead ++ payload ++ inside, number, hseen, ?_, hclosing⟩
    obtain ⟨field, wire⟩ := tag
    cases wire with
    | startGroup =>
      cases hpay
      -- the group that the tag opens is the first one to be closed
      obtain ⟨contents, closing, _, rest, rfl, hcontents, hclose, hrest⟩ := hinside
      have hgroup := hrest.cons hlead (.group hcontents hclose)
      simpa only [List.append_assoc, List.append_nil, List.nil_append] using hgroup
    | endGroup =>
      cases hpay
      cases depth with
      | zero => exact absurd ⟨rfl, rfl⟩ hend
      | succ depth =>
        exact ⟨[], lead, field, inside, by simp, .nil, hlead, hinside⟩
    | varint | fixed64 | fixed32 | lengthDelimited =>
      obtain ⟨-, hflat⟩ := (flatPayload_eq_ok_iff (by simp) (by simp)).1 hpay
      exact hinside.cons hlead (.flat hflat)

theorem isFields_of_groupParts (h : groupParts s = .ok (contents, closing) rest) :
    IsFields contents ∧ ∃ number, EncodesTag closing ⟨number, .endGroup⟩ := by
  obtain ⟨inside, number, rfl, hinside, hclosing⟩ := closesGroups_of_closeGroup h
  exact ⟨hinside, number, hclosing⟩

end

/-! ## Walks -/

/-- The bytes of an occurrence are those of its tag and of a payload of its wire type. A tag that
closes a group stands alone. -/
structure Field.IsEncoded (f : Field) : Prop where
  tag : EncodesTag f.lead f.tag
  payload : if f.tag.wire = .endGroup then f.payload = [] else IsPayload f.tag.wire f.payload

/-- The byte string is made up of the occurrences. -/
structure MadeOf (s : Bytes) (fields : List Field) : Prop where
  isEncoded : ∀ f ∈ fields, f.IsEncoded
  bytes_eq : s = fields.flatMap Field.bytes

theorem IsPayload.reads {p : Bytes} {wire : WireType} (h : IsPayload wire p) :
    Reads (payload wire) p p := by
  cases h with
  | flat hflat =>
    rw [payload_eq_flatPayload hflat.ne_startGroup]
    exact hflat.reads
  | group hcontents hclosing => exact (reads_groupParts hclosing.reads hcontents.passes).map _

theorem Field.framed_iff {f : Field} : f.Framed ↔ f.IsEncoded := by
  constructor
  · rintro ⟨hlead, hpayload⟩
    have htag := (header_eq_ok_iff.1 (hlead [])).2
    have hread := hpayload []
    rw [List.append_nil] at hread
    refine ⟨htag, ?_⟩
    split
    next hend =>
      rw [hend] at hread
      exact (EStateM.Result.ok.inj hread).1.symm
    next hend =>
      by_cases hstart : f.tag.wire = .startGroup
      · rw [hstart] at hread ⊢
        obtain ⟨⟨contents, closing⟩, hparts, hp⟩ := map_eq_ok_iff.1 hread
        obtain ⟨hcontents, number, hclosing⟩ := isFields_of_groupParts hparts
        exact hp ▸ .group hcontents hclosing
      · rw [payload_eq_flatPayload hstart] at hread
        exact .flat ((flatPayload_eq_ok_iff hstart hend).1 hread).2
  · rintro ⟨htag, hpayload⟩
    refine ⟨htag.reads, ?_⟩
    split at hpayload
    next hend =>
      rw [hend, hpayload]
      exact fun rest => rfl
    next => exact hpayload.reads

/-- A walk that ends properly finds the occurrences that the byte string is made up of. -/
theorem Walk.ofMessage_eq_iff {s : Bytes} {fields : List Field} :
    Walk.ofMessage s = ⟨fields, .complete⟩ ↔ MadeOf s fields := by
  constructor
  · intro h
    obtain ⟨rest, hframed, hs, hending⟩ := Walk.ofMessage_cuts s
    rw [h] at hframed hs hending
    obtain rfl := hending.1 rfl
    exact ⟨fun f hf => Field.framed_iff.1 (hframed f hf), hs.trans (List.append_nil _)⟩
  · rintro ⟨hencoded, rfl⟩
    exact Walk.ofMessage_framed fun f hf => Field.framed_iff.2 (hencoded f hf)

/-! ## Where a group ends -/

namespace Cursor

variable {c c' : Cursor} {contents : Bytes}

/-- Between two positions in a buffer stand the contents of a group and a tag that closes it. -/
structure GroupUpTo (c c' : Cursor) (contents : Bytes) : Prop where
  buffer_eq : c'.buffer = c.buffer
  position_le : c.position ≤ c'.position
  balanced : ∃ closing number, c'.sliceFrom c.position = contents ++ closing ∧
    IsFields contents ∧ EncodesTag closing ⟨number, .endGroup⟩

/-- What stands between two positions, and what stands behind the second. -/
theorem rest_eq_sliceFrom_append (hbuffer : c'.buffer = c.buffer)
    (hle : c.position ≤ c'.position) : c.rest = c'.sliceFrom c.position ++ c'.rest := by
  have hlength : c.position ≤ (c'.buffer.take c'.position).length := by
    have := c'.position_le
    rw [List.length_take]
    omega
  rw [rest, rest, sliceFrom, Nat.min_eq_left hle, ← List.drop_append_of_le_length hlength,
    List.take_append_drop, hbuffer]

/-- A cursor is at the place that has as much behind it. -/
theorem moveTo_length_rest (hbuffer : c'.buffer = c.buffer) :
    c.moveTo (c.buffer.length - c'.rest.length) = c' := by
  obtain ⟨buffer, position, hle⟩ := c'
  obtain rfl : buffer = c.buffer := hbuffer
  have hposition : min (c.buffer.length - (c.buffer.drop position).length) c.buffer.length =
      position := by
    rw [List.length_drop]
    omega
  simp only [moveTo, rest, hposition]

theorem run_group_eq_ok_iff : c.run group = (.ok contents, c') ↔ c.GroupUpTo c' contents := by
  rw [run_eq_ok_iff]
  constructor
  · rintro ⟨rest, hgroup, rfl⟩
    obtain ⟨⟨contents, closing⟩, hparts, rfl⟩ := map_eq_ok_iff.1 hgroup
    have hsplit : c.rest = contents ++ closing ++ rest := closeGroup_eq_ok hparts
    obtain ⟨hcontents, number, hclosing⟩ := isFields_of_groupParts hparts
    refine ⟨rfl, ?_, closing, number, sliceFrom_moveTo hsplit, hcontents, hclosing⟩
    rw [position_moveTo hsplit]
    exact Nat.le_add_right ..
  · rintro ⟨hbuffer, hle, closing, number, hslice, hcontents, hclosing⟩
    refine ⟨c'.rest, ?_, (moveTo_length_rest hbuffer).symm⟩
    rw [rest_eq_sliceFrom_append hbuffer hle, hslice]
    exact map_eq_ok_iff.2 ⟨_, reads_groupParts hclosing.reads hcontents.passes _, rfl⟩

/-- A group is read from a position on just if fields stand there and behind them a tag that closes
a group; the read gives these fields and moves behind that tag. There is at most one such place, and
if there is none the input is corrupt. -/
theorem run_group (c : Cursor) :
    (∀ contents c', c.run group = (.ok contents, c') ↔ c.GroupUpTo c' contents) ∧
    (∀ contents₁ contents₂ c₁ c₂, c.GroupUpTo c₁ contents₁ → c.GroupUpTo c₂ contents₂ →
      contents₁ = contents₂ ∧ c₁ = c₂) ∧
    ((∃ cause c', c.run group = (.error cause, c')) ↔
      ∀ contents c', ¬ c.GroupUpTo c' contents) := by
  refine ⟨fun _ _ => run_group_eq_ok_iff, ?_, ?_⟩
  · intro contents₁ contents₂ c₁ c₂ h₁ h₂
    have hsame := (run_group_eq_ok_iff.2 h₁).symm.trans (run_group_eq_ok_iff.2 h₂)
    cases hsame
    exact ⟨rfl, rfl⟩
  · constructor
    · rintro ⟨cause, c', herror⟩ contents c'' hgroup
      cases herror.symm.trans (run_group_eq_ok_iff.2 hgroup)
    · intro hnone
      rcases hrun : c.run group with ⟨contents | cause, c'⟩
      · exact ⟨_, _, rfl⟩
      · exact absurd (run_group_eq_ok_iff.1 hrun) (hnone _ _)

/-- A group within a group: the inner one, of field 2, is closed by a tag of field 9 that takes
three bytes, the outer one by the tag behind it. -/
theorem run_group_nested :
    ∃ c c' : Cursor, c.buffer = [0x0b, 0x13, 0x18, 0x05, 0xcc, 0x80, 0x00, 0x0c, 0x07] ∧
      c.position = 1 ∧ c'.position = 8 ∧
      c.GroupUpTo c' [0x13, 0x18, 0x05, 0xcc, 0x80, 0x00] ∧
      c.run group = (.ok [0x13, 0x18, 0x05, 0xcc, 0x80, 0x00], c') ∧
      ∀ contents c'', c.GroupUpTo c'' contents →
        contents = [0x13, 0x18, 0x05, 0xcc, 0x80, 0x00] ∧ c'' = c' := by
  have hfield : IsFields ([0x18] ++ [0x05] ++ []) :=
    .cons (header_eq_ok_iff.1 (rfl : header [0x18] = .ok ([0x18], ⟨3, .varint⟩) [])).2
      (.flat (.varint rfl (by decide))) .nil
  have hclosing : EncodesTag [0xcc, 0x80, 0x00] ⟨9, .endGroup⟩ :=
    (header_eq_ok_iff.1 (rfl : header [0xcc, 0x80, 0x00] = .ok (_, ⟨9, .endGroup⟩) [])).2
  have hinner : IsFields ([0x13] ++ ([0x18, 0x05] ++ [0xcc, 0x80, 0x00]) ++ []) :=
    .cons (header_eq_ok_iff.1 (rfl : header [0x13] = .ok ([0x13], ⟨2, .startGroup⟩) [])).2
      (.group hfield hclosing) .nil
  have hend : EncodesTag [0x0c] ⟨1, .endGroup⟩ :=
    (header_eq_ok_iff.1 (rfl : header [0x0c] = .ok (_, ⟨1, .endGroup⟩) [])).2
  have hgroup : GroupUpTo ⟨[0x0b, 0x13, 0x18, 0x05, 0xcc, 0x80, 0x00, 0x0c, 0x07], 1, by decide⟩
      ⟨[0x0b, 0x13, 0x18, 0x05, 0xcc, 0x80, 0x00, 0x0c, 0x07], 8, by decide⟩
      [0x13, 0x18, 0x05, 0xcc, 0x80, 0x00] := ⟨rfl, by decide, [0x0c], 1, rfl, hinner, hend⟩
  obtain ⟨hrun, hunique, -⟩ :=
    run_group ⟨[0x0b, 0x13, 0x18, 0x05, 0xcc, 0x80, 0x00, 0x0c, 0x07], 1, by decide⟩
  exact ⟨_, _, rfl, rfl, rfl, hgroup, (hrun _ _).2 hgroup,
    fun contents c'' h => hunique _ _ _ _ h hgroup⟩

end Cursor

end WireColumns
