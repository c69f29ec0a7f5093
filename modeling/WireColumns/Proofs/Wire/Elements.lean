import WireColumns.Proofs.Wire.Reads
import WireColumns.Proofs.Wire.Varint
import WireColumns.Proofs.Wire.Words

/-! # The bytes of tags and payloads

Which bytes are those of a tag (`EncodesTag`) and of a payload that is not a group (`IsFlat`), and
that the reads take just these off the front of the input (`Read.header_eq_ok_iff`,
`Read.flatPayload_eq_ok_iff`). -/

namespace WireColumns

open Varint Read

/-- The bytes of a tag. Its field number is not 0. -/
def EncodesTag (lead : Bytes) (tag : Tag) : Prop :=
  Encodes32 lead (tag.number.toNat * 8 + tag.wire.bits.toNat) ∧ tag.number ≠ 0

/-- The bytes of a payload that has no fields of its own. -/
inductive IsFlat : WireType → Bytes → Prop
  | varint {p : Bytes} : IsNumber p → p.length ≤ maxWidth → IsFlat .varint p
  | fixed64 {p : Bytes} : p.length = 8 → IsFlat .fixed64 p
  | fixed32 {p : Bytes} : p.length = 4 → IsFlat .fixed32 p
  | lengthDelimited {lead data : Bytes} : Encodes32 lead data.length →
      IsFlat .lengthDelimited (lead ++ data)

namespace Read

variable {s p lead data rest : Bytes} {tag : Tag} {wire : WireType}

theorem header_eq_ok_iff :
    header s = .ok (lead, tag) rest ↔ s = lead ++ rest ∧ EncodesTag lead tag := by
  constructor
  · intro h
    rw [header] at h
    split at h
    next => cases h
    next raw width hraw =>
      obtain ⟨p, rest', rfl, hp, rfl⟩ := decode32_eq_ok_iff.1 hraw
      rw [List.take_left, List.drop_left] at h
      split at h
      next hok =>
        cases h
        obtain ⟨htag, hzero⟩ := Tag.ofRaw_eq_ok_iff.1 hok
        exact ⟨rfl, htag ▸ hp, hzero⟩
      next => cases h
  · rintro ⟨rfl, hlead, hzero⟩
    have hraw : (UInt32.ofNat (tag.number.toNat * 8 + tag.wire.bits.toNat)).toNat =
        tag.number.toNat * 8 + tag.wire.bits.toNat := UInt32.toNat_ofNat_of_lt' hlead.lt
    rw [← hraw] at hlead
    rw [header, decode32_eq_ok_iff.2 ⟨lead, rest, rfl, hlead, rfl⟩]
    dsimp only
    rw [Tag.ofRaw_eq_ok_iff.2 ⟨hraw, hzero⟩, List.take_left, List.drop_left]

theorem rawVarint_eq_ok_iff :
    rawVarint s = .ok p rest ↔ s = p ++ rest ∧ IsNumber p ∧ p.length ≤ maxWidth := by
  constructor
  · intro h
    rw [rawVarint] at h
    split at h
    next hwidth =>
      obtain ⟨q, rest', rfl, hq, rfl⟩ := width_eq_ok_iff.1 hwidth
      rw [List.take_left, List.drop_left] at h
      cases h
      exact ⟨rfl, hq⟩
    next => cases h
  · rintro ⟨rfl, hp⟩
    rw [rawVarint, width_eq_ok_iff.2 ⟨p, rest, rfl, hp, rfl⟩]
    dsimp only
    rw [List.take_left, List.drop_left]

theorem reads_exactly (p : Bytes) (cause : Corruption) : Reads (exactly p.length cause) p p :=
  fun _ => exactly_eq_ok_iff.2 ⟨rfl, rfl⟩

/-- A number of fixed width, in as many bytes as it has. -/
theorem reads_fixed {α : Type} {w n : Nat} (hw : w ≤ 8 * n) (f : BitVec w → α)
    (cause : Corruption) (x : BitVec w) :
    Reads ((fun p => f (Fixed.decode p)) <$> exactly n cause) (Fixed.encode n x) (f x) := by
  have hbytes := reads_exactly (Fixed.encode n x) cause
  rw [Fixed.length_encode] at hbytes
  have hread := hbytes.map fun p => f (Fixed.decode p)
  rwa [Fixed.decode_encode hw] at hread

theorem delimitedParts_eq_ok_iff :
    delimitedParts s = .ok (lead, data) rest ↔
      s = lead ++ data ++ rest ∧ Encodes32 lead data.length := by
  constructor
  · intro h
    rw [delimitedParts] at h
    split at h
    next => cases h
    next hlength =>
      obtain ⟨p, rest', rfl, hp, rfl⟩ := decode32_eq_ok_iff.1 hlength
      rw [List.take_left, List.drop_left] at h
      split at h
      next hsplit =>
        cases h
        obtain ⟨hsize, rfl⟩ := Bytes.splitExact?_eq_some_iff.1 hsplit
        exact ⟨(List.append_assoc ..).symm, hsize ▸ hp⟩
      next => cases h
  · rintro ⟨rfl, hlead⟩
    have hlength : (UInt32.ofNat data.length).toNat = data.length :=
      UInt32.toNat_ofNat_of_lt' hlead.lt
    rw [← hlength] at hlead
    rw [delimitedParts, List.append_assoc,
      decode32_eq_ok_iff.2 ⟨lead, data ++ rest, rfl, hlead, rfl⟩]
    dsimp only
    rw [List.drop_left, List.take_left, Bytes.splitExact?_eq_some_iff.2 ⟨hlength.symm, rfl⟩]

/-- Behind the tags of groups nothing is taken as a flat payload, so they are left out here. -/
theorem flatPayload_eq_ok_iff (hstart : wire ≠ .startGroup) (hend : wire ≠ .endGroup) :
    flatPayload wire s = .ok p rest ↔ s = p ++ rest ∧ IsFlat wire p := by
  cases wire with
  | startGroup => exact absurd rfl hstart
  | endGroup => exact absurd rfl hend
  | varint =>
    rw [flatPayload, rawVarint_eq_ok_iff]
    apply and_congr_right
    intro _
    constructor
    · rintro ⟨hp, hle⟩
      exact .varint hp hle
    · rintro ⟨hp, hle⟩
      exact ⟨hp, hle⟩
  | fixed64 =>
    rw [flatPayload, exactly_eq_ok_iff]
    apply and_congr_right
    intro _
    constructor
    · exact .fixed64
    · rintro ⟨hp⟩
      assumption
  | fixed32 =>
    rw [flatPayload, exactly_eq_ok_iff]
    apply and_congr_right
    intro _
    constructor
    · exact .fixed32
    · rintro ⟨hp⟩
      assumption
  | lengthDelimited =>
    rw [flatPayload, map_eq_ok_iff]
    constructor
    · rintro ⟨⟨lead, data⟩, hparts, rfl⟩
      obtain ⟨hs, hlead⟩ := delimitedParts_eq_ok_iff.1 hparts
      exact ⟨hs, .lengthDelimited hlead⟩
    · rintro ⟨rfl, hflat⟩
      cases hflat with
      | @lengthDelimited lead data hlead =>
        exact ⟨(lead, data), delimitedParts_eq_ok_iff.2 ⟨rfl, hlead⟩, rfl⟩

end Read

/-! ## Reading them -/

section

variable {p lead : Bytes} {tag : Tag} {wire : WireType}

theorem EncodesTag.reads (h : EncodesTag lead tag) : Reads header lead (lead, tag) :=
  fun _ => header_eq_ok_iff.2 ⟨rfl, h⟩

theorem IsFlat.ne_startGroup (h : IsFlat wire p) : wire ≠ .startGroup := by
  rintro rfl
  cases h

theorem IsFlat.ne_endGroup (h : IsFlat wire p) : wire ≠ .endGroup := by
  rintro rfl
  cases h

theorem IsFlat.reads (h : IsFlat wire p) : Reads (flatPayload wire) p p :=
  fun _ => (flatPayload_eq_ok_iff h.ne_startGroup h.ne_endGroup).2 ⟨rfl, h⟩

end

end WireColumns
