import WireColumns.Wire.Bytes
import WireColumns.Error

/-! # Base-128 numbers

A varint holds seven bits of a number in each byte, the lowest first; every byte but the last has
its high bit set. Encodings need not be the shortest. Numbers of 64 bits take at most ten bytes,
tags and lengths, which have 32 bits, at most five.
-/

namespace WireColumns.Varint

/-- The most bytes a number of 64 bits takes. -/
def maxWidth : Nat := 10

/-- The most bytes a number of 32 bits takes. -/
def maxWidth32 : Nat := 5

/-- How numbers of `w` bits are laid out, and what is wrong with the bytes of none. -/
structure Layout (w : Nat) where
  /-- the most bytes a number takes -/
  maxWidth : Nat
  /-- the largest byte in the last place -/
  lastByte : UInt8
  truncated : Corruption
  overflow : Corruption
  maxWidth_pos : 0 < maxWidth
  lastByte_lt : lastByte < 0x80
  /-- what is left for the last place makes the width up -/
  fills : Nat.pow 128 (maxWidth - 1) * (lastByte.toNat + 1) = Nat.pow 2 w

/-- The tenth byte may only add the 64th bit. -/
def layout64 : Layout 64 where
  maxWidth := maxWidth
  lastByte := 0x01
  truncated := .varintTruncated
  overflow := .varintOverflow
  maxWidth_pos := by decide
  lastByte_lt := by decide
  fills := rfl

/-- The fifth byte may add four bits. -/
def layout32 : Layout 32 where
  maxWidth := maxWidth32
  lastByte := 0x0f
  truncated := .varint32Truncated
  overflow := .varint32Overflow
  maxWidth_pos := by decide
  lastByte_lt := by decide
  fills := rfl

/-- Decodes on from byte `i`, where the bytes before it make up `value`. -/
def decodeFrom {w : Nat} (l : Layout w) (i : Nat) (value : BitVec w) :
    Bytes → Except Corruption (BitVec w × Nat)
  | [] => .error l.truncated
  | b :: rest =>
    if i + 1 = l.maxWidth ∧ l.lastByte < b then .error l.overflow
    else
      let value := value ||| (b &&& 0x7f).toBitVec.setWidth w <<< (7 * i)
      if b < 0x80 then .ok (value, i + 1) else decodeFrom l (i + 1) value rest

/-- The number at the start of the input, and its width in bytes. -/
def decode (s : Bytes) : Except Corruption (UInt64 × Nat) :=
  (decodeFrom layout64 0 0#64 s).map fun (value, width) => (.ofBitVec value, width)

/-- The number at the start of the input if it fits 32 bits, and its width in bytes. -/
def decode32 (s : Bytes) : Except Corruption (UInt32 × Nat) :=
  (decodeFrom layout32 0 0#32 s).map fun (value, width) => (.ofBitVec value, width)

/-- Measures on from byte `i`. -/
def widthFrom (i : Nat) : Bytes → Except Corruption Nat
  | [] => .error (if i < maxWidth then .varintTruncated else .varintTooLong)
  | b :: rest =>
    if maxWidth ≤ i then .error .varintTooLong
    else if b < 0x80 then .ok (i + 1) else widthFrom (i + 1) rest

/-- The width in bytes of the number at the start of the input. The number itself is not
looked at. -/
def width (s : Bytes) : Except Corruption Nat := widthFrom 0 s

/-- The shortest encoding. -/
def encode (n : Nat) : Bytes :=
  if n < 128 then [UInt8.ofNat n] else UInt8.ofNat (n % 128 + 128) :: encode (n / 128)

/-! ## Widths -/

theorem decodeFrom_width {w : Nat} {l : Layout w} {s : Bytes} {i : Nat} {value v : BitVec w}
    {n : Nat} (h : decodeFrom l i value s = .ok (v, n)) : i < n ∧ n ≤ i + s.length := by
  induction s generalizing i value with
  | nil => simp [decodeFrom] at h
  | cons b rest ih =>
    simp only [decodeFrom] at h
    split at h
    · simp at h
    · split at h
      · simp only [Except.ok.injEq, Prod.mk.injEq] at h
        simp only [List.length_cons]
        omega
      · have := ih h
        simp only [List.length_cons]
        omega

theorem decode_eq_ok {s : Bytes} {v : UInt64} {n : Nat} :
    decode s = .ok (v, n) ↔ decodeFrom layout64 0 0#64 s = .ok (v.toBitVec, n) := by
  unfold decode
  cases decodeFrom layout64 0 0#64 s <;> simp [Except.map, Prod.ext_iff, ← UInt64.toBitVec_inj]

theorem decode32_eq_ok {s : Bytes} {v : UInt32} {n : Nat} :
    decode32 s = .ok (v, n) ↔ decodeFrom layout32 0 0#32 s = .ok (v.toBitVec, n) := by
  unfold decode32
  cases decodeFrom layout32 0 0#32 s <;> simp [Except.map, Prod.ext_iff, ← UInt32.toBitVec_inj]

theorem decode_width {s : Bytes} {v : UInt64} {n : Nat} (h : decode s = .ok (v, n)) :
    0 < n ∧ n ≤ s.length := by
  simpa using decodeFrom_width (decode_eq_ok.1 h)

theorem decode32_width {s : Bytes} {v : UInt32} {n : Nat} (h : decode32 s = .ok (v, n)) :
    0 < n ∧ n ≤ s.length := by
  simpa using decodeFrom_width (decode32_eq_ok.1 h)

theorem widthFrom_width {s : Bytes} {i n : Nat} (h : widthFrom i s = .ok n) :
    i < n ∧ n ≤ i + s.length := by
  induction s generalizing i with
  | nil => simp [widthFrom] at h
  | cons b rest ih =>
    simp only [widthFrom] at h
    split at h
    · simp at h
    · split at h
      · simp only [Except.ok.injEq] at h
        simp only [List.length_cons]
        omega
      · have := ih h
        simp only [List.length_cons]
        omega

theorem width_pos {s : Bytes} {n : Nat} (h : width s = .ok n) : 0 < n ∧ n ≤ s.length := by
  simpa using widthFrom_width h

end WireColumns.Varint
