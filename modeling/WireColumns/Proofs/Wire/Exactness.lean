import WireColumns.Proofs.Wire.Varint

/-! # Varints byte by byte

What the three readers of a varint accept, in terms of the bytes at their positions
(`Varint.readers_agree`). The bytes of a number end at the first one that lacks the high bit
(`Varint.exists_isNumber_iff`), and ten of them fit 64 bits if the tenth is at most 1
(`Varint.IsNumber.value_lt_iff`). -/

namespace WireColumns.Varint

variable {s p : Bytes} {n : Nat}

/-! ## Positions -/

theorem IsNumber.findIdx?_append (hp : IsNumber p) (rest : Bytes) :
    (p ++ rest).findIdx? (· < 0x80) = some (p.length - 1) := by
  induction p with
  | nil => exact hp.elim
  | cons b p ih =>
    rw [List.cons_append, List.findIdx?_cons]
    rcases Nat.lt_or_ge b.toNat 128 with hb | hb
    · obtain rfl := (isNumber_cons_of_lt hb).1 hp
      rw [if_pos (decide_eq_true (UInt8.lt_iff_toNat_lt.2 hb))]
      rfl
    · have hp := (isNumber_cons_of_le hb).1 hp
      rw [if_neg (by simpa using not_lt_128 hb), ih hp, Option.map_some, List.length_cons,
        Nat.sub_add_cancel hp.length_pos]
      rfl

theorem exists_isNumber_of_findIdx? {i : Nat} (h : s.findIdx? (· < 0x80) = some i) :
    ∃ p rest, s = p ++ rest ∧ IsNumber p ∧ p.length = i + 1 := by
  induction s generalizing i with
  | nil => cases h
  | cons b s ih =>
    rw [List.findIdx?_cons] at h
    split at h
    next hb =>
      cases h
      have hb := UInt8.lt_iff_toNat_lt.1 (of_decide_eq_true hb)
      exact ⟨[b], s, rfl, (isNumber_cons_of_lt hb).2 rfl, rfl⟩
    next hb =>
      have hb : 128 ≤ b.toNat := by
        simpa using UInt8.le_iff_toNat_le.1 (UInt8.not_lt.1 fun hlt => hb (decide_eq_true hlt))
      obtain ⟨i, hi, rfl⟩ := Option.map_eq_some_iff.1 h
      obtain ⟨p, rest, rfl, hp, hlength⟩ := ih hi
      exact ⟨b :: p, rest, rfl, (isNumber_cons_of_le hb).2 hp, by rw [List.length_cons, hlength]⟩

/-- The bytes of the number at the start of the input end at the first one that lacks the high
bit. -/
theorem exists_isNumber_iff :
    (∃ p rest, s = p ++ rest ∧ IsNumber p ∧ n = p.length) ↔
      0 < n ∧ s.findIdx? (· < 0x80) = some (n - 1) := by
  constructor
  · rintro ⟨p, rest, rfl, hp, rfl⟩
    exact ⟨hp.length_pos, hp.findIdx?_append rest⟩
  · rintro ⟨hn, hfind⟩
    obtain ⟨p, rest, rfl, hp, hlength⟩ := exists_isNumber_of_findIdx? hfind
    exact ⟨p, rest, rfl, hp, by omega⟩

/-! ## The number that the bytes hold -/

theorem value_append (p q : Bytes) : value (p ++ q) = value p + 128 ^ p.length * value q := by
  induction p with
  | nil => simp [value]
  | cons b p ih =>
    rw [List.cons_append, value, value, ih, List.length_cons, Nat.pow_succ]
    ring

theorem value_lt (p : Bytes) : value p < 128 ^ p.length := by
  induction p with
  | nil => exact Nat.one_pos
  | cons b p ih =>
    rw [value, List.length_cons, Nat.pow_succ]
    have hdigit := Nat.mod_lt b.toNat (y := 128) (by decide)
    omega

theorem value_eq_sum (p rest : Bytes) :
    value p = ∑ i ∈ Finset.range p.length, ((p ++ rest).getD i 0).toNat % 128 * 128 ^ i := by
  induction p with
  | nil => rfl
  | cons b p ih =>
    rw [List.length_cons, Finset.sum_range_succ', value, ih, Finset.mul_sum]
    simp only [List.cons_append, List.getD_cons_succ, List.getD_cons_zero, Nat.pow_zero,
      Nat.mul_one, Nat.pow_succ]
    rw [Nat.add_comm]
    congr 1
    exact Finset.sum_congr rfl fun i _ => by ring

theorem IsNumber.exists_eq_concat (hp : IsNumber p) :
    ∃ front last, p = front ++ [last] ∧ last.toNat < 128 := by
  induction p with
  | nil => exact hp.elim
  | cons b p ih =>
    rcases Nat.lt_or_ge b.toNat 128 with hb | hb
    · obtain rfl := (isNumber_cons_of_lt hb).1 hp
      exact ⟨[], b, rfl, hb⟩
    · obtain ⟨front, last, rfl, hlast⟩ := ih ((isNumber_cons_of_le hb).1 hp)
      exact ⟨b :: front, last, rfl, hlast⟩

/-- Nine bytes hold 63 bits, so that only one is left for the tenth. -/
theorem IsNumber.value_lt_iff (hp : IsNumber p) (hlen : p.length ≤ maxWidth) :
    value p < 2 ^ 64 ↔ (p.length = 10 → (p.getD 9 0).toNat ≤ 1) := by
  obtain ⟨front, last, rfl, hlast⟩ := hp.exists_eq_concat
  have hfront := value_lt front
  have hvalue : value (front ++ [last]) = value front + 128 ^ front.length * last.toNat := by
    rw [value_append, value, value, Nat.mul_zero, Nat.add_zero, Nat.mod_eq_of_lt hlast]
  rw [List.length_append, List.length_singleton] at hlen ⊢
  rcases Nat.lt_or_eq_of_le hlen with hshort | hlong
  · have hall := value_lt (front ++ [last])
    have hpow : 128 ^ (front ++ [last]).length ≤ 128 ^ 9 := by
      rw [List.length_append]
      exact Nat.pow_le_pow_right (by decide) (Nat.le_of_lt_succ hshort)
    unfold maxWidth at hshort
    exact iff_of_true (by omega) (by omega)
  · have hnine : front.length = 9 := Nat.succ.inj hlong
    have hget : (front ++ [last]).getD 9 0 = last := by
      rw [← hnine]
      simp
    rw [hvalue, hget]
    rw [hnine] at hfront ⊢
    omega

/-! ## The three readers -/

/-- A number of 32 bits is one of 64 bits that is short and small enough. -/
theorem encodes32_iff : Encodes32 p n ↔ Encodes64 p n ∧ p.length ≤ 5 ∧ n < 2 ^ 32 := by
  constructor
  · intro h
    have hlen : p.length ≤ 5 := h.length_le
    have hlt := h.lt
    refine ⟨⟨h.isNumber, ?_, h.value_eq, by omega⟩, hlen, hlt⟩
    exact Nat.le_trans hlen (by decide)
  · rintro ⟨h, hlen, hlt⟩
    exact ⟨h.isNumber, hlen, h.value_eq, hlt⟩

theorem decode_eq_ok_iff_sum {v : UInt64} :
    decode s = .ok (v, n) ↔
      0 < n ∧ n ≤ 10 ∧ s.findIdx? (· < 0x80) = some (n - 1) ∧
        v.toNat = ∑ i ∈ Finset.range n, (s.getD i 0).toNat % 128 * 128 ^ i := by
  rw [decode_eq_ok_iff]
  constructor
  · rintro ⟨p, rest, rfl, hp, rfl⟩
    refine ⟨hp.isNumber.length_pos, hp.length_le, hp.isNumber.findIdx?_append rest, ?_⟩
    rw [← hp.value_eq, ← value_eq_sum]
  · rintro ⟨hpos, hlen, hfind, hv⟩
    obtain ⟨p, rest, rfl, hp, rfl⟩ := exists_isNumber_iff.2 ⟨hpos, hfind⟩
    rw [← value_eq_sum] at hv
    exact ⟨p, rest, rfl, ⟨hp, hlen, hv.symm, v.toNat_lt⟩, rfl⟩

theorem exists_decode32_eq_ok_iff {w : UInt64} :
    (∃ v, decode32 s = .ok (v, n) ∧ v.toUInt64 = w) ↔
      decode s = .ok (w, n) ∧ n ≤ 5 ∧ w.toNat < 2 ^ 32 := by
  rw [decode_eq_ok_iff]
  constructor
  · rintro ⟨v, hv, rfl⟩
    obtain ⟨p, rest, rfl, hp, rfl⟩ := decode32_eq_ok_iff.1 hv
    obtain ⟨h64, hlen, hlt⟩ := encodes32_iff.1 hp
    rw [UInt32.toNat_toUInt64]
    exact ⟨⟨p, rest, rfl, h64, rfl⟩, hlen, hlt⟩
  · rintro ⟨⟨p, rest, rfl, hp, rfl⟩, hlen, hlt⟩
    have hw : w.toUInt32.toNat = w.toNat := by rw [UInt64.toNat_toUInt32, Nat.mod_eq_of_lt hlt]
    refine ⟨w.toUInt32, decode32_eq_ok_iff.2 ⟨p, rest, rfl, ?_, rfl⟩, ?_⟩
    · rw [hw]
      exact encodes32_iff.2 ⟨hp, hlen, hlt⟩
    · rw [← UInt64.toNat_inj, UInt32.toNat_toUInt64, hw]

theorem getD_nine_le_one {v : UInt64} (h : decode s = .ok (v, 10)) : s.getD 9 0 ≤ 1 := by
  obtain ⟨p, rest, rfl, hp, hlen⟩ := decode_eq_ok_iff.1 h
  have hlast := (hp.isNumber.value_lt_iff hp.length_le).1 (hp.value_eq ▸ hp.lt) hlen.symm
  rw [List.getD_append _ _ _ _ (by omega)]
  exact UInt8.le_iff_toNat_le.2 hlast

/-- What is measured can be decoded, unless it has ten bytes and the tenth is too large. -/
theorem width_eq_ok_iff_decode :
    width s = .ok n ↔ (∃ v, decode s = .ok (v, n)) ∨
      n = 10 ∧ s.findIdx? (· < 0x80) = some 9 ∧ 2 ≤ s.getD 9 0 ∧ s.getD 9 0 ≤ 127 := by
  rw [width_eq_ok_iff]
  constructor
  · rintro ⟨p, rest, rfl, ⟨hp, hlen⟩, rfl⟩
    by_cases hlt : value p < 2 ^ 64
    · refine .inl ⟨UInt64.ofNat (value p), decode_eq_ok_iff.2 ⟨p, rest, rfl, ?_, rfl⟩⟩
      rw [UInt64.toNat_ofNat_of_lt' hlt]
      exact ⟨hp, hlen, rfl, hlt⟩
    · rw [hp.value_lt_iff hlen, Classical.not_imp, Nat.not_le] at hlt
      obtain ⟨hten, hlast⟩ := hlt
      have hfind := hp.findIdx?_append rest
      rw [hten] at hfind
      obtain ⟨hlength, hbyte, -⟩ := List.findIdx?_eq_some_iff_getElem.1 hfind
      refine .inr ⟨hten, hfind, ?_, ?_⟩
      · rw [List.getD_append _ _ _ _ (by omega)]
        exact UInt8.le_iff_toNat_le.2 hlast
      · rw [List.getD_eq_getElem _ _ hlength]
        have hbyte := UInt8.lt_iff_toNat_lt.1 (of_decide_eq_true hbyte)
        exact UInt8.le_iff_toNat_le.2 (Nat.le_of_lt_succ hbyte)
  · rintro (⟨v, hv⟩ | ⟨rfl, hfind, -⟩)
    · obtain ⟨p, rest, rfl, hp, rfl⟩ := decode_eq_ok_iff.1 hv
      exact ⟨p, rest, rfl, ⟨hp.isNumber, hp.length_le⟩, rfl⟩
    · obtain ⟨p, rest, rfl, hp, hlen⟩ := exists_isNumber_iff.2 ⟨Nat.succ_pos 9, hfind⟩
      exact ⟨p, rest, rfl, ⟨hp, Nat.le_of_eq hlen.symm⟩, hlen⟩

/-- The three readers of a varint are exact and agree. The number ends at the first byte that lacks
the high bit and is the sum of the digits in front of that place, none of which is lost; what does
not end within ten bytes, or does not fit, is refused. The reader of 32 bits reads the same numbers
if they are short and small enough. The reader of widths measures these numbers, and beside them
only those whose tenth byte is too large. -/
theorem readers_agree (s : Bytes) :
    (∀ v n, decode s = .ok (v, n) ↔
      0 < n ∧ n ≤ 10 ∧ s.findIdx? (· < 0x80) = some (n - 1) ∧
        v.toNat = ∑ i ∈ Finset.range n, (s.getD i 0).toNat % 128 * 128 ^ i) ∧
    ((¬ ∃ v n, decode s = .ok (v, n)) →
      decode s = .error (if s.length < 10 then .varintTruncated else .varintOverflow)) ∧
    (∀ v, decode s = .ok (v, 10) → s.getD 9 0 ≤ 1) ∧
    (∀ w n, (∃ v, decode32 s = .ok (v, n) ∧ v.toUInt64 = w) ↔
      decode s = .ok (w, n) ∧ n ≤ 5 ∧ w.toNat < 2 ^ 32) ∧
    ∀ n, width s = .ok n ↔ (∃ v, decode s = .ok (v, n)) ∨
      n = 10 ∧ s.findIdx? (· < 0x80) = some 9 ∧ 2 ≤ s.getD 9 0 ∧ s.getD 9 0 ≤ 127 := by
  refine ⟨fun v n => decode_eq_ok_iff_sum, fun hnone => ?_, fun v => getD_nine_le_one,
    fun w n => exists_decode32_eq_ok_iff, fun n => width_eq_ok_iff_decode⟩
  cases hdecode : decode s with
  | ok vn => exact absurd ⟨vn.1, vn.2, hdecode⟩ hnone
  | error cause => rw [decode_eq_error hdecode, maxWidth]

/-- Ten bytes that can be skipped but not read. -/
example :
    width [0x80, 0x80, 0x80, 0x80, 0x80, 0x80, 0x80, 0x80, 0x80, 0x7f] = .ok 10 ∧
      decode [0x80, 0x80, 0x80, 0x80, 0x80, 0x80, 0x80, 0x80, 0x80, 0x7f] =
        .error .varintOverflow := by
  decide

end WireColumns.Varint
