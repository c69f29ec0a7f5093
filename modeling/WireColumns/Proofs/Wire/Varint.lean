import Mathlib
import WireColumns.Wire.Varint

/-! # What varints stand for

`Varint.value` is the number that the bytes of a varint hold, without a bound. A decoder gives it
for the bytes of one number (`Varint.IsNumber`) if they are not too many for its layout and the
number fits; how they were made up does not matter. Nothing else is decoded
(`Varint.Encodes`, `Varint.decode_eq_ok_iff`, `Varint.decode32_eq_ok_iff`). The bytes of
`Varint.encode` are the shortest ones that hold a number (`Varint.length_encode_value_le`). -/

namespace WireColumns.Varint

/-- The number in the low seven bits of the bytes, the lowest first. -/
def value : Bytes → Nat
  | [] => 0
  | b :: rest => b.toNat % 128 + 128 * value rest

/-- The bytes of one number: the last one, and no other, lacks the high bit. -/
def IsNumber : Bytes → Prop
  | [] => False
  | b :: rest => if b < 0x80 then rest = [] else IsNumber rest

/-- The bytes of a number of `w` bits. There may be more of them than needed, but not more than the
layout has room for. -/
structure Encodes {w : Nat} (l : Layout w) (s : Bytes) (n : Nat) : Prop where
  isNumber : IsNumber s
  length_le : s.length ≤ l.maxWidth
  value_eq : value s = n
  lt : n < 2 ^ w

abbrev Encodes32 : Bytes → Nat → Prop := Encodes layout32

abbrev Encodes64 : Bytes → Nat → Prop := Encodes layout64

/-! ## Adding one byte -/

theorem pow_128 (i : Nat) : 128 ^ i = 2 ^ (7 * i) := by
  rw [Nat.pow_mul]

theorem or_shiftLeft_eq {acc digit i : Nat} (h : acc < 128 ^ i) :
    acc ||| digit <<< (7 * i) = acc + digit * 128 ^ i := by
  rw [pow_128] at h ⊢
  rw [Nat.or_comm, ← Nat.shiftLeft_add_eq_or_of_lt h, Nat.shiftLeft_eq, Nat.add_comm]

theorem toNat_and_127 (b : UInt8) : (b &&& 0x7f).toNat = b.toNat % 128 := by
  rw [UInt8.toNat_and]
  exact Nat.and_two_pow_sub_one_eq_mod b.toNat 7

theorem toNat_addByte {w i : Nat} {acc : BitVec w} {b : UInt8} (hacc : acc.toNat < 128 ^ i)
    (hfit : acc.toNat + b.toNat % 128 * 128 ^ i < 2 ^ w) :
    (acc ||| (b &&& 0x7f).toBitVec.setWidth w <<< (7 * i)).toNat =
      acc.toNat + b.toNat % 128 * 128 ^ i := by
  have hdigit : b.toNat % 128 ≤ b.toNat % 128 * 128 ^ i :=
    Nat.le_mul_of_pos_right _ (Nat.pow_pos (by decide))
  have hbyte : ((b &&& 0x7f).toBitVec.setWidth w).toNat = b.toNat % 128 := by
    rw [BitVec.toNat_setWidth, UInt8.toNat_toBitVec, toNat_and_127, Nat.mod_eq_of_lt (by omega)]
  rw [BitVec.toNat_or, BitVec.toNat_shiftLeft, hbyte, Nat.mod_eq_of_lt, or_shiftLeft_eq hacc]
  rw [Nat.shiftLeft_eq, ← pow_128]
  omega

theorem addByte_lt {acc i : Nat} (h : acc < 128 ^ i) (b : UInt8) :
    acc + b.toNat % 128 * 128 ^ i < 128 ^ (i + 1) := by
  have hdigit : b.toNat % 128 ≤ 127 := Nat.le_pred_of_lt (Nat.mod_lt _ (by decide))
  have hmul := Nat.mul_le_mul_right (128 ^ i) hdigit
  rw [Nat.pow_succ]
  omega

namespace Layout

variable {w : Nat} (l : Layout w)

theorem pow_mul_eq : 128 ^ (l.maxWidth - 1) * (l.lastByte.toNat + 1) = 2 ^ w := l.fills

theorem pow_le_of_lt {i : Nat} (hi : i < l.maxWidth) : 128 ^ i ≤ 2 ^ w := by
  rw [← l.pow_mul_eq]
  refine Nat.le_trans (Nat.pow_le_pow_right (by decide) (Nat.le_pred_of_lt hi)) ?_
  exact Nat.le_mul_of_pos_right _ (Nat.succ_pos _)

/-- In the last place there is room for the bytes up to `lastByte`. -/
theorem mul_lt_iff {i : Nat} (hlast : i + 1 = l.maxWidth) (n : Nat) :
    n * 128 ^ i < 2 ^ w ↔ n ≤ l.lastByte.toNat := by
  have hi : l.maxWidth - 1 = i := by omega
  rw [← l.pow_mul_eq, hi, Nat.mul_comm n, Nat.mul_lt_mul_left (Nat.pow_pos (by decide)),
    Nat.lt_succ_iff]

/-- A byte that is not refused takes the number nowhere past its width. -/
theorem addByte_lt {acc i : Nat} {b : UInt8} (hacc : acc < 128 ^ i) (hi : i < l.maxWidth)
    (hfit : ¬ (i + 1 = l.maxWidth ∧ l.lastByte < b)) :
    acc + b.toNat % 128 * 128 ^ i < 2 ^ w := by
  rcases Nat.lt_or_eq_of_le hi with hnext | hlast
  · exact Nat.lt_of_lt_of_le (Varint.addByte_lt hacc b) (l.pow_le_of_lt hnext)
  · have hbyte : b.toNat % 128 ≤ l.lastByte.toNat :=
      Nat.le_trans (Nat.mod_le ..) (UInt8.le_iff_toNat_le.1 (UInt8.not_lt.1 fun hbig =>
        hfit ⟨hlast, hbig⟩))
    have hi : l.maxWidth - 1 = i := by omega
    have hmul := Nat.mul_le_mul_left (128 ^ i) hbyte
    rw [← l.pow_mul_eq, hi, Nat.mul_succ, Nat.mul_comm (b.toNat % 128)]
    omega

end Layout

/-! ## Decoding -/

theorem value_cons_mul (b : UInt8) (s : Bytes) (i : Nat) :
    value (b :: s) * 128 ^ i = b.toNat % 128 * 128 ^ i + value s * 128 ^ (i + 1) := by
  rw [value, Nat.pow_succ, Nat.add_mul, Nat.mul_comm 128 (value s), Nat.mul_assoc,
    Nat.mul_comm 128]

theorem IsNumber.length_pos {s : Bytes} (h : IsNumber s) : 0 < s.length := by
  cases s with
  | nil => exact h.elim
  | cons b s => exact Nat.succ_pos _

theorem not_lt_128 {b : UInt8} (hb : 128 ≤ b.toNat) : ¬ b < 0x80 := fun h =>
  Nat.not_lt.2 hb (UInt8.lt_iff_toNat_lt.1 h)

theorem isNumber_cons_of_lt {b : UInt8} {s : Bytes} (hb : b.toNat < 128) :
    IsNumber (b :: s) ↔ s = [] := by
  rw [IsNumber, if_pos (UInt8.lt_iff_toNat_lt.2 hb)]

theorem isNumber_cons_of_le {b : UInt8} {s : Bytes} (hb : 128 ≤ b.toNat) :
    IsNumber (b :: s) ↔ IsNumber s := by
  rw [IsNumber, if_neg (not_lt_128 hb)]

section

variable {w : Nat} {l : Layout w}

/-- A number is decoded, or refused, by its own bytes. -/
theorem decodeFrom_number {s : Bytes} (hs : IsNumber s) (rest : Bytes) (i : Nat)
    (acc : BitVec w) : decodeFrom l i acc (s ++ rest) = decodeFrom l i acc s := by
  induction s generalizing i acc with
  | nil => exact hs.elim
  | cons b s ih =>
    rw [List.cons_append, decodeFrom, decodeFrom]
    split
    next => rfl
    next =>
      dsimp only
      split
      next => rfl
      next hb =>
        rw [IsNumber, if_neg hb] at hs
        exact ih hs ..

theorem decodeFrom_append {s : Bytes} (hs : IsNumber s) (rest : Bytes) {i : Nat} {acc : BitVec w}
    (hlen : i + s.length ≤ l.maxWidth) (hacc : acc.toNat < 128 ^ i)
    (hfit : acc.toNat + value s * 128 ^ i < 2 ^ w) :
    decodeFrom l i acc (s ++ rest) =
      .ok (.ofNat w (acc.toNat + value s * 128 ^ i), i + s.length) := by
  induction s generalizing i acc with
  | nil => exact hs.elim
  | cons b s ih =>
    rw [List.length_cons] at hlen ⊢
    rw [value_cons_mul] at hfit ⊢
    have hadd := toNat_addByte (b := b) hacc (by omega)
    rw [List.cons_append, decodeFrom]
    rcases Nat.lt_or_ge b.toNat 128 with hb | hb
    · obtain rfl := (isNumber_cons_of_lt hb).1 hs
      -- in the last place the number would not fit with a byte above `lastByte`
      have hno : ¬ (i + 1 = l.maxWidth ∧ l.lastByte < b) := by
        rintro ⟨hlast, hbig⟩
        rw [Nat.mod_eq_of_lt hb] at hfit
        have hle := (l.mul_lt_iff hlast b.toNat).1 (by omega)
        exact absurd (UInt8.lt_iff_toNat_lt.1 hbig) (Nat.not_lt.2 hle)
      rw [if_neg hno]
      simp only [value, Nat.zero_mul, Nat.add_zero, List.length_nil]
      rw [if_pos (UInt8.lt_iff_toNat_lt.2 hb), ← hadd, BitVec.ofNat_toNat, BitVec.setWidth_eq]
    · have hs' := (isNumber_cons_of_le hb).1 hs
      have hpos := hs'.length_pos
      rw [if_neg (by omega)]
      simp only
      rw [if_neg (not_lt_128 hb), ih hs' (by omega) ?_ ?_, hadd, Nat.add_assoc acc.toNat,
        Nat.add_right_comm i, Nat.add_assoc i]
      · rw [hadd]
        exact addByte_lt hacc b
      · rw [hadd]
        omega

/-- A byte that announces a further one is refused in the last place. -/
theorem add_one_lt_maxWidth {i : Nat} {b : UInt8} (hi : i < l.maxWidth)
    (hfit : ¬ (i + 1 = l.maxWidth ∧ l.lastByte < b)) (hb : ¬ b < 0x80) : i + 1 < l.maxWidth := by
  apply Nat.lt_of_le_of_ne hi
  intro hlast
  exact hfit ⟨hlast, UInt8.lt_of_lt_of_le l.lastByte_lt (UInt8.not_lt.1 hb)⟩

theorem decodeFrom_eq_ok {s : Bytes} {i n : Nat} {acc v : BitVec w}
    (h : decodeFrom l i acc s = .ok (v, n)) (hi : i < l.maxWidth) (hacc : acc.toNat < 128 ^ i) :
    ∃ p rest, s = p ++ rest ∧ IsNumber p ∧ n = i + p.length ∧ n ≤ l.maxWidth ∧
      v.toNat = acc.toNat + value p * 128 ^ i := by
  induction s generalizing i acc with
  | nil => cases h
  | cons b s ih =>
    rw [decodeFrom] at h
    split at h
    next => cases h
    next hfit =>
      have hadd := toNat_addByte (b := b) hacc (l.addByte_lt hacc hi hfit)
      dsimp only at h
      split at h
      next hb =>
        cases h
        refine ⟨[b], s, rfl, (isNumber_cons_of_lt (UInt8.lt_iff_toNat_lt.1 hb)).2 rfl, rfl, hi, ?_⟩
        rw [hadd, value, value, Nat.mul_zero, Nat.add_zero]
      next hb =>
        have hnext := add_one_lt_maxWidth hi hfit hb
        have hb : 128 ≤ b.toNat := UInt8.le_iff_toNat_le.1 (UInt8.not_lt.1 hb)
        obtain ⟨p, rest, rfl, hp, rfl, hle, hv⟩ := ih h hnext (hadd ▸ addByte_lt hacc b)
        refine ⟨b :: p, rest, rfl, (isNumber_cons_of_le hb).2 hp, ?_, hle, ?_⟩
        · rw [List.length_cons, Nat.add_right_comm, Nat.add_assoc]
        · rw [hv, hadd, value_cons_mul, Nat.add_assoc]

/-- An input that is too short has no end of a number in it; any other is refused at the last
place. -/
theorem decodeFrom_eq_error {s : Bytes} {i : Nat} {acc : BitVec w} {cause : Corruption}
    (h : decodeFrom l i acc s = .error cause) (hi : i < l.maxWidth) :
    cause = if i + s.length < l.maxWidth then l.truncated else l.overflow := by
  induction s generalizing i acc with
  | nil =>
    cases h
    exact (if_pos hi).symm
  | cons b s ih =>
    rw [List.length_cons]
    rw [decodeFrom] at h
    split at h
    next hlast =>
      cases h
      rw [if_neg (by omega)]
    next hfit =>
      dsimp only at h
      split at h
      next => cases h
      next hb => rw [ih h (add_one_lt_maxWidth hi hfit hb), Nat.add_right_comm, Nat.add_assoc]

/-- Just the bytes of a number are decoded, to the number that they hold. -/
theorem decodeFrom_eq_ok_iff {s : Bytes} {v : BitVec w} {n : Nat} :
    decodeFrom l 0 0#w s = .ok (v, n) ↔
      ∃ p rest, s = p ++ rest ∧ Encodes l p v.toNat ∧ n = p.length := by
  have hzero : (0#w).toNat < 128 ^ 0 := by simp
  constructor
  · intro h
    obtain ⟨p, rest, rfl, hp, rfl, hle, hv⟩ := decodeFrom_eq_ok h l.maxWidth_pos hzero
    rw [Nat.zero_add] at hle ⊢
    refine ⟨p, rest, rfl, ⟨hp, hle, ?_, v.isLt⟩, rfl⟩
    rw [hv]
    simp
  · rintro ⟨p, rest, rfl, hp, rfl⟩
    have hlt := hp.value_eq ▸ hp.lt
    rw [decodeFrom_append hp.isNumber rest (by simpa using hp.length_le) hzero (by simpa using hlt),
      hp.value_eq]
    simp

end

variable {s : Bytes}

theorem decode_number (hs : IsNumber s) (rest : Bytes) : decode (s ++ rest) = decode s := by
  rw [decode, decodeFrom_number hs, decode]

theorem decode_eq_ok_iff {v : UInt64} {n : Nat} :
    decode s = .ok (v, n) ↔ ∃ p rest, s = p ++ rest ∧ Encodes64 p v.toNat ∧ n = p.length :=
  decode_eq_ok.trans decodeFrom_eq_ok_iff

theorem decode_eq_error {cause : Corruption} (h : decode s = .error cause) :
    cause = if s.length < maxWidth then .varintTruncated else .varintOverflow := by
  rw [decode] at h
  cases hdecode : decodeFrom layout64 0 0#64 s with
  | ok vn =>
    rw [hdecode] at h
    cases h
  | error e =>
    rw [hdecode] at h
    cases h
    rw [decodeFrom_eq_error hdecode (by decide), Nat.zero_add]
    rfl

theorem decode32_eq_ok_iff {v : UInt32} {n : Nat} :
    decode32 s = .ok (v, n) ↔ ∃ p rest, s = p ++ rest ∧ Encodes32 p v.toNat ∧ n = p.length :=
  decode32_eq_ok.trans decodeFrom_eq_ok_iff

/-! ## Measuring -/

theorem widthFrom_append {s : Bytes} (hs : IsNumber s) (rest : Bytes) {i : Nat}
    (hlen : i + s.length ≤ maxWidth) : widthFrom i (s ++ rest) = .ok (i + s.length) := by
  induction s generalizing i with
  | nil => exact hs.elim
  | cons b s ih =>
    rw [List.length_cons] at hlen ⊢
    rw [List.cons_append, widthFrom, if_neg (by omega)]
    rcases Nat.lt_or_ge b.toNat 128 with hb | hb
    · obtain rfl := (isNumber_cons_of_lt hb).1 hs
      rw [if_pos (UInt8.lt_iff_toNat_lt.2 hb)]
      rfl
    · have hs' := (isNumber_cons_of_le hb).1 hs
      rw [if_neg (not_lt_128 hb), ih hs' (by omega), Nat.add_right_comm i, Nat.add_assoc i]

theorem width_append (hs : IsNumber s) (hlen : s.length ≤ maxWidth) (rest : Bytes) :
    width (s ++ rest) = .ok s.length := by
  have h := widthFrom_append hs rest (i := 0) (by omega)
  simpa [width] using h

theorem widthFrom_eq_ok {s : Bytes} {i n : Nat} (h : widthFrom i s = .ok n) :
    ∃ p rest, s = p ++ rest ∧ IsNumber p ∧ n = i + p.length ∧ n ≤ maxWidth := by
  induction s generalizing i with
  | nil => cases h
  | cons b s ih =>
    rw [widthFrom] at h
    split at h
    next => cases h
    next hi =>
      split at h
      next hb =>
        cases h
        exact ⟨[b], s, rfl, (isNumber_cons_of_lt (UInt8.lt_iff_toNat_lt.1 hb)).2 rfl, rfl,
          Nat.not_le.1 hi⟩
      next hb =>
        have hb : 128 ≤ b.toNat := UInt8.le_iff_toNat_le.1 (UInt8.not_lt.1 hb)
        obtain ⟨p, rest, rfl, hp, rfl, hle⟩ := ih h
        refine ⟨b :: p, rest, rfl, (isNumber_cons_of_le hb).2 hp, ?_, hle⟩
        rw [List.length_cons, Nat.add_right_comm, Nat.add_assoc]

theorem width_eq_ok_iff {n : Nat} :
    width s = .ok n ↔
      ∃ p rest, s = p ++ rest ∧ (IsNumber p ∧ p.length ≤ maxWidth) ∧ n = p.length := by
  constructor
  · intro h
    obtain ⟨p, rest, rfl, hp, rfl, hle⟩ := widthFrom_eq_ok h
    rw [Nat.zero_add] at hle ⊢
    exact ⟨p, rest, rfl, ⟨hp, hle⟩, rfl⟩
  · rintro ⟨p, rest, rfl, ⟨hp, hle⟩, rfl⟩
    exact width_append hp hle rest

/-! ## Encoding -/

theorem isNumber_encode (n : Nat) : IsNumber (encode n) := by
  induction n using encode.induct with
  | case1 n hn =>
    rw [encode, if_pos hn, isNumber_cons_of_lt]
    rw [UInt8.toNat_ofNat']
    omega
  | case2 n hn ih =>
    rw [encode, if_neg hn, isNumber_cons_of_le]
    · exact ih
    · rw [UInt8.toNat_ofNat']
      omega

theorem value_encode (n : Nat) : value (encode n) = n := by
  induction n using encode.induct with
  | case1 n hn =>
    rw [encode, if_pos hn, value, value, UInt8.toNat_ofNat']
    omega
  | case2 n hn ih =>
    rw [encode, if_neg hn, value, ih, UInt8.toNat_ofNat']
    omega

theorem length_encode_le {n k : Nat} (h : n < 128 ^ (k + 1)) : (encode n).length ≤ k + 1 := by
  induction k generalizing n with
  | zero =>
    rw [encode, if_pos (by simpa using h)]
    exact Nat.le_refl 1
  | succ k ih =>
    rw [encode]
    split
    · simp
    · rw [List.length_cons]
      exact Nat.succ_le_succ (ih (Nat.div_lt_of_lt_mul (by rwa [Nat.mul_comm, ← Nat.pow_succ])))

/-- No bytes of a number are fewer than those of its encoding. -/
theorem length_encode_value_le {s : Bytes} (hs : IsNumber s) :
    (encode (value s)).length ≤ s.length := by
  induction s with
  | nil => exact hs.elim
  | cons b s ih =>
    rw [encode]
    split
    next => exact Nat.succ_le_succ (Nat.zero_le _)
    next hlarge =>
      rw [value] at hlarge ⊢
      rcases Nat.lt_or_ge b.toNat 128 with hb | hb
      · obtain rfl := (isNumber_cons_of_lt hb).1 hs
        rw [value] at hlarge
        omega
      · have hdiv : (b.toNat % 128 + 128 * value s) / 128 = value s := by omega
        rw [hdiv]
        exact Nat.succ_le_succ (ih ((isNumber_cons_of_le hb).1 hs))

end WireColumns.Varint
