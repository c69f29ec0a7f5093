import WireColumns.Wire.Fixed
import WireColumns.Wire.Tag
import WireColumns.Wire.ZigZag

/-! # Words and what they are written as

Zig-zag words, words of fixed width and tags give back what they were made of. The first two are
statements about bits: a zig-zag word is the number moved up by one bit and flipped where the number
is negative, and a word of fixed width is cut into bytes. A tag is a statement about numbers: the
wire type is the remainder of the word by 8, the field number the quotient. -/

namespace WireColumns

/-! ## Zig-zag words -/

namespace ZigZag

theorem sshiftRight_width {w : Nat} (x : BitVec (w + 1)) :
    x.sshiftRight w = if x.msb then BitVec.allOnes (w + 1) else 0#(w + 1) := by
  refine BitVec.eq_of_getElem_eq fun i hi => ?_
  rw [BitVec.getElem_sshiftRight]
  split
  next h =>
    obtain rfl : i = 0 := by omega
    rw [BitVec.msb_eq_getLsbD_last]
    cases hlast : x.getLsbD w <;> simp_all
  next h => cases hm : x.msb <;> simp

/-- The lowest bit of a zig-zag word is the sign, and the others are flipped where it is set. -/
theorem unzigzag {w : Nat} (x : BitVec (w + 1)) :
    (x <<< 1 ^^^ x.sshiftRight w) >>> 1 ^^^
      -((x <<< 1 ^^^ x.sshiftRight w) &&& 1#(w + 1)) = x := by
  rw [sshiftRight_width]
  cases hm : x.msb with
  | false =>
    rw [BitVec.msb_eq_getLsbD_last] at hm
    have hsign : (x <<< 1 ^^^ 0#(w + 1)) &&& 1#(w + 1) = 0#(w + 1) := by
      ext i hi
      simp only [BitVec.xor_zero, BitVec.getElem_and, BitVec.getElem_shiftLeft, BitVec.getElem_one,
        BitVec.getElem_zero]
      grind
    simp only [Bool.false_eq_true, if_false, hsign]
    ext i hi
    simp only [BitVec.xor_zero, BitVec.neg_zero, BitVec.getElem_ushiftRight,
      BitVec.getLsbD_shiftLeft]
    grind
  | true =>
    rw [BitVec.msb_eq_getLsbD_last] at hm
    have hsign : (x <<< 1 ^^^ BitVec.allOnes (w + 1)) &&& 1#(w + 1) = 1#(w + 1) := by
      ext i hi
      simp only [BitVec.xor_allOnes, BitVec.getElem_and, BitVec.getElem_not,
        BitVec.getElem_shiftLeft, BitVec.getElem_one]
      grind
    simp only [if_true, hsign, BitVec.neg_one_eq_allOnes]
    ext i hi
    simp only [BitVec.xor_allOnes, BitVec.getElem_not, BitVec.getElem_ushiftRight,
      BitVec.getLsbD_not, BitVec.getLsbD_shiftLeft]
    grind

theorem decode32_encode32 (n : Int32) : decode32 (encode32 n) = n :=
  Int32.toBitVec_inj.1 (unzigzag n.toBitVec)

theorem decode64_encode64 (n : Int64) : decode64 (encode64 n) = n :=
  Int64.toBitVec_inj.1 (unzigzag n.toBitVec)

end ZigZag

/-! ## Words of fixed width -/

namespace Fixed

variable {w : Nat}

theorem getLsbD_decode_encode (n : Nat) (x : BitVec w) (i : Nat) :
    (decode (encode n x) : BitVec w).getLsbD i = (decide (i < 8 * n) && x.getLsbD i) := by
  induction n generalizing x i with
  | zero => simp [encode, decode]
  | succ n ih =>
    simp only [encode, decode, BitVec.getLsbD_or, BitVec.getLsbD_setWidth,
      BitVec.getLsbD_shiftLeft, ih, BitVec.getLsbD_ushiftRight]
    grind

/-- A number is kept by as many bytes as it has. -/
theorem decode_encode {n : Nat} (h : w ≤ 8 * n) (x : BitVec w) : decode (encode n x) = x := by
  ext i hi
  rw [← BitVec.getLsbD_eq_getElem, ← BitVec.getLsbD_eq_getElem, getLsbD_decode_encode,
    decide_eq_true (by omega), Bool.true_and]

end Fixed

/-! ## Tags -/

theorem WireType.toNat_bits_lt (wire : WireType) : wire.bits.toNat < 8 := by
  cases wire <;> decide

theorem WireType.ofBits?_eq_some_iff {bits : UInt32} {wire : WireType} :
    ofBits? bits = some wire ↔ bits = wire.bits := by
  constructor
  · intro h
    have := List.find?_some h
    exact (beq_iff_eq.1 this).symm
  · rintro rfl
    exact ofBits?_bits wire

namespace Tag

variable {tag : Tag}

theorem toNat_and_7 (raw : UInt32) : (raw &&& 7).toNat = raw.toNat % 8 := by
  rw [UInt32.toNat_and]
  exact Nat.and_two_pow_sub_one_eq_mod _ 3

theorem toNat_shiftRight_3 (raw : UInt32) : (raw >>> 3).toNat = raw.toNat / 8 := by
  rw [UInt32.toNat_shiftRight]
  exact Nat.shiftRight_eq_div_pow _ 3

theorem toNat_toRaw (h : tag.number ≤ maxNumber) :
    tag.toRaw.toNat = tag.number.toNat * 8 + tag.wire.bits.toNat := by
  have hlt : tag.number.toNat ≤ 536870911 := UInt32.le_iff_toNat_le.1 h
  have hshift : (tag.number <<< 3).toNat = tag.number.toNat <<< 3 := by
    have hfit : tag.number.toNat <<< 3 < 2 ^ 32 := by
      rw [Nat.shiftLeft_eq]
      omega
    rw [UInt32.toNat_shiftLeft]
    exact Nat.mod_eq_of_lt hfit
  rw [toRaw, UInt32.toNat_or, hshift, ← Nat.shiftLeft_add_eq_or_of_lt tag.wire.toNat_bits_lt,
    Nat.shiftLeft_eq]

theorem toRaw_and_7 (h : tag.number ≤ maxNumber) : tag.toRaw &&& 7 = tag.wire.bits := by
  have hbits := tag.wire.toNat_bits_lt
  refine UInt32.toNat_inj.1 ?_
  rw [toNat_and_7, toNat_toRaw h]
  omega

theorem toRaw_shiftRight_3 (h : tag.number ≤ maxNumber) : tag.toRaw >>> 3 = tag.number := by
  have hbits := tag.wire.toNat_bits_lt
  refine UInt32.toNat_inj.1 ?_
  rw [toNat_shiftRight_3, toNat_toRaw h]
  omega

theorem ofRaw_toRaw (hpos : tag.number ≠ 0) (h : tag.number ≤ maxNumber) :
    ofRaw tag.toRaw = .ok tag := by
  rw [ofRaw, toRaw_and_7 h, WireType.ofBits?_bits, toRaw_shiftRight_3 h]
  exact if_neg hpos

/-- The words that are tags. -/
theorem ofRaw_eq_ok_iff {raw : UInt32} :
    ofRaw raw = .ok tag ↔
      raw.toNat = tag.number.toNat * 8 + tag.wire.bits.toNat ∧ tag.number ≠ 0 := by
  constructor
  · intro h
    rw [ofRaw] at h
    split at h
    next => cases h
    next wire hwire =>
      split at h
      next => cases h
      next hzero =>
        cases h
        have hbits := congrArg UInt32.toNat (WireType.ofBits?_eq_some_iff.1 hwire)
        refine ⟨?_, hzero⟩
        rw [toNat_shiftRight_3, ← hbits, toNat_and_7]
        omega
  · rintro ⟨hraw, hzero⟩
    have hbits := tag.wire.toNat_bits_lt
    have hlt := raw.toNat_lt
    have hle : tag.number ≤ maxNumber := by
      rw [UInt32.le_iff_toNat_le, maxNumber]
      change _ ≤ 536870911
      omega
    obtain rfl : raw = tag.toRaw := UInt32.toNat_inj.1 (hraw.trans (toNat_toRaw hle).symm)
    exact ofRaw_toRaw hzero hle

end Tag

end WireColumns
