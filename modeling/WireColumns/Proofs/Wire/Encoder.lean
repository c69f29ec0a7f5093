import WireColumns.Proofs.Wire.Elements
import WireColumns.Wire.Message

/-! # Reading what has been written

What is relied on where numbers and keys are written (`LawfulEncoder`): a number takes as few bytes
as it can, and a key is one number. Each read then takes just what has been written for it off the
front. -/

namespace WireColumns

open Varint Read

/-- Numbers are written in as few bytes as hold them. A key is the number that has the wire type in
its low three bits and the field number above them. -/
class LawfulEncoder [Encoder] : Prop where
  isNumber_varint (v : UInt64) : IsNumber (Encoder.varint v)
  value_varint (v : UInt64) : value (Encoder.varint v) = v.toNat
  length_varint_le {v : UInt64} {s : Bytes} : IsNumber s → value s = v.toNat →
    (Encoder.varint v).length ≤ s.length
  key_eq {number : UInt32} {wire : WireType} : number ≠ 0 → number ≤ Tag.maxNumber →
    Encoder.key number wire = Encoder.varint (number.toUInt64 * 8 + wire.bits.toUInt64)

namespace Encoder

theorem toNat_key {number : UInt32} (hle : number ≤ Tag.maxNumber) (wire : WireType) :
    (number.toUInt64 * 8 + wire.bits.toUInt64).toNat = number.toNat * 8 + wire.bits.toNat := by
  have hnumber : number.toNat ≤ 536870911 := UInt32.le_iff_toNat_le.1 hle
  have hbits := wire.toNat_bits_lt
  rw [UInt64.toNat_add, UInt64.toNat_mul, UInt32.toNat_toUInt64, UInt32.toNat_toUInt64]
  change (number.toNat * 8 % 2 ^ 64 + wire.bits.toNat) % 2 ^ 64 = _
  omega

/-- The encoder that writes numbers in their shortest form is a lawful one. -/
instance lawful_shortest : @LawfulEncoder shortest where
  isNumber_varint _ := isNumber_encode _
  value_varint _ := value_encode _
  length_varint_le {v s} hs hv := by
    change (encode v.toNat).length ≤ s.length
    rw [← hv]
    exact length_encode_value_le hs
  key_eq {number wire} _ hle := by
    change encode (Tag.toRaw ⟨number, wire⟩).toNat = encode (UInt64.toNat _)
    rw [Tag.toNat_toRaw hle, toNat_key hle]

variable [Encoder] [LawfulEncoder]

open LawfulEncoder

/-! ## Numbers -/

theorem length_varint_le_of_lt {v : UInt64} {k : Nat} (h : v.toNat < 128 ^ (k + 1)) :
    (varint v).length ≤ k + 1 :=
  Nat.le_trans (length_varint_le (isNumber_encode _) (value_encode _)) (length_encode_le h)

theorem encodes64_varint (v : UInt64) : Encodes64 (varint v) v.toNat where
  isNumber := isNumber_varint v
  length_le := length_varint_le_of_lt (k := 9) (Nat.lt_trans v.toNat_lt (by decide))
  value_eq := value_varint v
  lt := v.toNat_lt

theorem encodes32_varint {v : UInt64} (h : v.toNat < 2 ^ 32) : Encodes32 (varint v) v.toNat where
  isNumber := isNumber_varint v
  length_le := length_varint_le_of_lt (k := 4) (Nat.lt_trans h (by decide))
  value_eq := value_varint v
  lt := h

/-- A length of 32 bits in front of the bytes. -/
theorem encodes32_length {data : Bytes} (h : data.length < 2 ^ 32) :
    Encodes32 (varint (.ofNat data.length)) data.length := by
  have hlength : (UInt64.ofNat data.length).toNat = data.length :=
    UInt64.toNat_ofNat_of_lt' (Nat.lt_trans h (by decide))
  have hlead := encodes32_varint (hlength.symm ▸ h)
  rwa [hlength] at hlead

theorem encodesTag_key {number : UInt32} (hpos : number ≠ 0) (hle : number ≤ Tag.maxNumber)
    (wire : WireType) : EncodesTag (key number wire) ⟨number, wire⟩ := by
  have hnumber : number.toNat ≤ 536870911 := UInt32.le_iff_toNat_le.1 hle
  have hbits := wire.toNat_bits_lt
  have hvalue := toNat_key hle wire
  have hlead := encodes32_varint (v := number.toUInt64 * 8 + wire.bits.toUInt64) (by omega)
  rw [key_eq hpos hle]
  exact ⟨hvalue ▸ hlead, hpos⟩

/-! ## Reads -/

theorem reads_varint (v : UInt64) : Reads Read.varint (varint v) v := by
  intro rest
  rw [Read.varint, decode_eq_ok_iff.2 ⟨_, rest, rfl, encodes64_varint v, rfl⟩]
  dsimp only
  rw [List.drop_left]

theorem reads_rawVarint (v : UInt64) : Reads rawVarint (varint v) (varint v) := by
  intro rest
  have hv := encodes64_varint v
  exact rawVarint_eq_ok_iff.2 ⟨rfl, hv.isNumber, hv.length_le⟩

theorem reads_header {number : UInt32} (hpos : number ≠ 0) (hle : number ≤ Tag.maxNumber)
    (wire : WireType) : Reads header (key number wire) (key number wire, ⟨number, wire⟩) :=
  fun _ => header_eq_ok_iff.2 ⟨rfl, encodesTag_key hpos hle wire⟩

theorem reads_delimitedParts {data : Bytes} (h : data.length < 2 ^ 32) :
    Reads delimitedParts (varint (.ofNat data.length) ++ data)
      (varint (.ofNat data.length), data) :=
  fun _ => delimitedParts_eq_ok_iff.2 ⟨rfl, encodes32_length h⟩

end Encoder

end WireColumns
