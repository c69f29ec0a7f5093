import Mathlib
import WireColumns.Text.Utf8

/-! # Texts and their bytes

`Utf8.encode` writes the characters of a text one after the other. The byte strings written so are
those that are decoded, each to the text it was written for (`Utf8.decode?_eq_some_iff`), and the
boundaries in them are the places between two characters (`Utf8.isBoundary_encode_iff`). A character
has at most four bytes, so that the last boundary up to some place is not far in front of it
(`Utf8.exists_cut`). -/

namespace WireColumns.Utf8

/-- The bytes of a text. -/
def encode (text : List Char) : Bytes := text.flatMap String.utf8EncodeChar

variable {text shown hidden : List Char} {c : Char} {s rest : Bytes} {b t u v : UInt8}

@[simp] theorem encode_nil : encode [] = [] := rfl

theorem encode_cons (c : Char) (text : List Char) :
    encode (c :: text) = String.utf8EncodeChar c ++ encode text := List.flatMap_cons

theorem encode_singleton (c : Char) : encode [c] = String.utf8EncodeChar c := List.append_nil _

theorem encode_append (shown hidden : List Char) :
    encode (shown ++ hidden) = encode shown ++ encode hidden := List.flatMap_append

/-! ## Bytes of a character -/

theorem charAt?_eq_some_iff {least code : Nat} :
    charAt? least code = some c ↔ least ≤ code ∧ c.toNat = code := by
  unfold charAt?
  split
  next h =>
    rw [Option.some.injEq]
    constructor
    · rintro rfl
      exact ⟨h.1, rfl⟩
    · rintro ⟨-, rfl⟩
      rfl
  next h =>
    simp only [reduceCtorEq, false_iff]
    rintro ⟨hleast, rfl⟩
    exact h ⟨hleast, c.valid⟩

theorem isTail_iff : isTail b = true ↔ 0x80 ≤ b.toNat ∧ b.toNat < 0xc0 := by
  simp [isTail, UInt8.le_iff_toNat_le, UInt8.lt_iff_toNat_lt]

theorem toNat_byte {n : Nat} (h : n < 256) : (UInt8.ofNat n).toNat = n :=
  UInt8.toNat_ofNat_of_lt' h

theorem toNat_tail (n : Nat) : (UInt8.ofNat (n % 64 + 128)).toNat = n % 64 + 128 :=
  toNat_byte (by omega)

theorem isTail_tail (n : Nat) : isTail (UInt8.ofNat (n % 64 + 128)) = true := by
  rw [isTail_iff, toNat_tail]
  omega

theorem tailBits_tail (n : Nat) : tailBits (UInt8.ofNat (n % 64 + 128)) = n % 64 := by
  unfold tailBits
  rw [toNat_tail, Nat.add_sub_cancel]

theorem tail_tailBits (ht : isTail t = true) : UInt8.ofNat (tailBits t + 128) = t := by
  rw [isTail_iff] at ht
  unfold tailBits
  rw [← UInt8.toNat_inj, toNat_byte (by omega)]
  omega

theorem tailBits_lt (ht : isTail t = true) : tailBits t < 64 := by
  rw [isTail_iff] at ht
  unfold tailBits
  omega

theorem next?_one (hb : b.toNat < 0x80) : next? (b :: s) = (charAt? 0 b.toNat).map (·, s) := by
  unfold next?
  exact if_pos (UInt8.lt_iff_toNat_lt.2 hb)

theorem next?_two (hb : 0xc0 ≤ b.toNat) (hb' : b.toNat < 0xe0) (ht : isTail t = true) :
    next? (b :: t :: s) =
      (charAt? 0x80 ((b.toNat - 0xc0) * 64 + tailBits t)).map (·, s) := by
  have hone : ¬ b.toNat < 0x80 := by omega
  simp [next?, UInt8.le_iff_toNat_le, UInt8.lt_iff_toNat_lt, hone, hb, hb', ht]

theorem next?_three (hb : 0xe0 ≤ b.toNat) (hb' : b.toNat < 0xf0) (ht : isTail t = true)
    (hu : isTail u = true) :
    next? (b :: t :: u :: s) =
      (charAt? 0x800 ((b.toNat - 0xe0) * 4096 + tailBits t * 64 + tailBits u)).map (·, s) := by
  have hone : ¬ b.toNat < 0x80 := by omega
  have htwo : ¬ b.toNat < 0xe0 := by omega
  simp [next?, UInt8.le_iff_toNat_le, UInt8.lt_iff_toNat_lt, hone, htwo, hb, hb', ht, hu]

theorem next?_four (hb : 0xf0 ≤ b.toNat) (hb' : b.toNat < 0xf8) (ht : isTail t = true)
    (hu : isTail u = true) (hv : isTail v = true) :
    next? (b :: t :: u :: v :: s) =
      (charAt? 0x10000 ((b.toNat - 0xf0) * 262144 + tailBits t * 4096 + tailBits u * 64 +
        tailBits v)).map (·, s) := by
  have hone : ¬ b.toNat < 0x80 := by omega
  have htwo : ¬ b.toNat < 0xe0 := by omega
  have hthree : ¬ b.toNat < 0xf0 := by omega
  simp [next?, UInt8.le_iff_toNat_le, UInt8.lt_iff_toNat_lt, hone, htwo, hthree, hb, hb', ht, hu,
    hv]

/-! ## One character -/

theorem toNat_lt (c : Char) : c.toNat < 0x110000 := by
  have h := c.valid
  unfold UInt32.isValidChar Nat.isValidChar at h
  unfold Char.toNat
  omega

/-- A character is read from the bytes it is written with, whatever follows them. -/
theorem next?_utf8EncodeChar (c : Char) (rest : Bytes) :
    next? (String.utf8EncodeChar c ++ rest) = some (c, rest) := by
  have hlt := toNat_lt c
  have hsome : ∀ {least code : Nat}, least ≤ code → c.toNat = code →
      (charAt? least code).map (·, rest) = some (c, rest) := by
    intro least code hleast hcode
    rw [charAt?_eq_some_iff.2 ⟨hleast, hcode⟩, Option.map_some]
  fun_cases String.utf8EncodeChar c with
  | case1 n hone =>
    have hn : c.toNat = n := rfl
    have hb := toNat_byte (n := n) (by omega)
    refine (next?_one (by omega)).trans ?_
    exact hsome (Nat.zero_le _) (by omega)
  | case2 n hone htwo =>
    have hn : c.toNat = n := rfl
    have hb := toNat_byte (n := n / 64 % 32 + 192) (by omega)
    refine (next?_two (by omega) (by omega) (isTail_tail n)).trans ?_
    rw [hb, tailBits_tail]
    exact hsome (by omega) (by omega)
  | case3 n hone htwo hthree =>
    have hn : c.toNat = n := rfl
    have hb := toNat_byte (n := n / 4096 % 16 + 224) (by omega)
    refine (next?_three (by omega) (by omega) (isTail_tail (n / 64)) (isTail_tail n)).trans ?_
    rw [hb, tailBits_tail, tailBits_tail]
    exact hsome (by omega) (by omega)
  | case4 n hone htwo hthree =>
    have hn : c.toNat = n := rfl
    have hb := toNat_byte (n := n / 262144 % 8 + 240) (by omega)
    refine (next?_four (by omega) (by omega) (isTail_tail (n / 4096)) (isTail_tail (n / 64))
      (isTail_tail n)).trans ?_
    rw [hb, tailBits_tail, tailBits_tail, tailBits_tail]
    exact hsome (by omega) (by omega)

theorem utf8EncodeChar_one (hb : b.toNat < 0x80) (hcode : c.toNat = b.toNat) :
    String.utf8EncodeChar c = [b] := by
  fun_cases String.utf8EncodeChar c with
  | case1 n hone =>
    have hn : n = b.toNat := hcode
    rw [hn, UInt8.ofNat_toNat]
  | case2 n hone | case3 n hone | case4 n hone =>
    have hn : n = b.toNat := hcode
    omega

theorem utf8EncodeChar_two (hb : 0xc0 ≤ b.toNat) (hb' : b.toNat < 0xe0) (ht : isTail t = true)
    (hleast : 0x80 ≤ (b.toNat - 0xc0) * 64 + tailBits t)
    (hcode : c.toNat = (b.toNat - 0xc0) * 64 + tailBits t) :
    String.utf8EncodeChar c = [b, t] := by
  have htail := tailBits_lt ht
  rw [← hcode] at hleast
  fun_cases String.utf8EncodeChar c with
  | case2 n hone htwo =>
    have hn : c.toNat = n := rfl
    have hfirst : n / 64 % 32 + 192 = b.toNat := by omega
    have hlast : n % 64 = tailBits t := by omega
    rw [hfirst, hlast, UInt8.ofNat_toNat, tail_tailBits ht]
  | case1 n hone | case3 n hone htwo | case4 n hone htwo =>
    have hn : c.toNat = n := rfl
    omega

theorem utf8EncodeChar_three (hb : 0xe0 ≤ b.toNat) (hb' : b.toNat < 0xf0) (ht : isTail t = true)
    (hu : isTail u = true)
    (hleast : 0x800 ≤ (b.toNat - 0xe0) * 4096 + tailBits t * 64 + tailBits u)
    (hcode : c.toNat = (b.toNat - 0xe0) * 4096 + tailBits t * 64 + tailBits u) :
    String.utf8EncodeChar c = [b, t, u] := by
  have htail := tailBits_lt ht
  have hutail := tailBits_lt hu
  rw [← hcode] at hleast
  fun_cases String.utf8EncodeChar c with
  | case3 n hone htwo hthree =>
    have hn : c.toNat = n := rfl
    have hfirst : n / 4096 % 16 + 224 = b.toNat := by omega
    have hsecond : n / 64 % 64 = tailBits t := by omega
    have hlast : n % 64 = tailBits u := by omega
    rw [hfirst, hsecond, hlast, UInt8.ofNat_toNat, tail_tailBits ht, tail_tailBits hu]
  | case1 n hone | case2 n hone htwo | case4 n hone htwo hthree =>
    have hn : c.toNat = n := rfl
    omega

theorem utf8EncodeChar_four (hb : 0xf0 ≤ b.toNat) (hb' : b.toNat < 0xf8) (ht : isTail t = true)
    (hu : isTail u = true) (hv : isTail v = true)
    (hleast : 0x10000 ≤ (b.toNat - 0xf0) * 262144 + tailBits t * 4096 + tailBits u * 64 +
      tailBits v)
    (hcode : c.toNat = (b.toNat - 0xf0) * 262144 + tailBits t * 4096 + tailBits u * 64 +
      tailBits v) : String.utf8EncodeChar c = [b, t, u, v] := by
  have htail := tailBits_lt ht
  have hutail := tailBits_lt hu
  have hvtail := tailBits_lt hv
  rw [← hcode] at hleast
  fun_cases String.utf8EncodeChar c with
  | case4 n hone htwo hthree =>
    have hn : c.toNat = n := rfl
    have hfirst : n / 262144 % 8 + 240 = b.toNat := by omega
    have hsecond : n / 4096 % 64 = tailBits t := by omega
    have hthird : n / 64 % 64 = tailBits u := by omega
    have hlast : n % 64 = tailBits v := by omega
    rw [hfirst, hsecond, hthird, hlast, UInt8.ofNat_toNat, tail_tailBits ht, tail_tailBits hu,
      tail_tailBits hv]
  | case1 n hone | case2 n hone htwo | case3 n hone htwo hthree =>
    have hn : c.toNat = n := rfl
    omega

theorem map_charAt?_eq_some {least code : Nat} {s : Bytes}
    (h : (charAt? least code).map (·, s) = some (c, rest)) :
    least ≤ code ∧ c.toNat = code ∧ rest = s := by
  obtain ⟨d, hd, hpair⟩ := Option.map_eq_some_iff.1 h
  cases hpair
  obtain ⟨hleast, hcode⟩ := charAt?_eq_some_iff.1 hd
  exact ⟨hleast, hcode, rfl⟩

theorem between_iff {lo hi : UInt8} :
    (lo ≤ b && b < hi) = true ↔ lo.toNat ≤ b.toNat ∧ b.toNat < hi.toNat := by
  simp [UInt8.le_iff_toNat_le, UInt8.lt_iff_toNat_lt]

/-- What is read as a character are the bytes that this character is written with. -/
theorem eq_of_next? (h : next? s = some (c, rest)) : s = String.utf8EncodeChar c ++ rest := by
  revert h
  fun_cases next? s with
  | case2 b s hone =>
    intro h
    obtain ⟨-, hcode, rfl⟩ := map_charAt?_eq_some h
    rw [utf8EncodeChar_one (UInt8.lt_iff_toNat_lt.1 hone) hcode, List.singleton_append]
  | case3 b hone htwo t s ht =>
    intro h
    obtain ⟨hleast, hcode, rfl⟩ := map_charAt?_eq_some h
    obtain ⟨hb, hb'⟩ := between_iff.1 htwo
    rw [utf8EncodeChar_two hb hb' ht hleast hcode]
    rfl
  | case6 b hone htwo hthree t u s htails =>
    intro h
    rw [Bool.and_eq_true] at htails
    obtain ⟨hleast, hcode, rfl⟩ := map_charAt?_eq_some h
    obtain ⟨hb, hb'⟩ := between_iff.1 hthree
    rw [utf8EncodeChar_three hb hb' htails.1 htails.2 hleast hcode]
    rfl
  | case9 b hone htwo hthree hfour t u v s htails =>
    intro h
    rw [Bool.and_eq_true, Bool.and_eq_true] at htails
    obtain ⟨hleast, hcode, rfl⟩ := map_charAt?_eq_some h
    obtain ⟨hb, hb'⟩ := between_iff.1 hfour
    rw [utf8EncodeChar_four hb hb' htails.1.1 htails.1.2 htails.2 hleast hcode]
    rfl
  -- bytes that are missing or no tails, and bytes that begin no character
  | case1 | case4 | case5 | case7 | case8 | case10 | case11 | case12 =>
    intro h
    cases h

/-! ## Texts -/

theorem decodeFrom_encode (seen : Array Char) (text : List Char) :
    decodeFrom seen (encode text) = some (seen.toList ++ text) := by
  induction text generalizing seen with
  | nil =>
    rw [decodeFrom, List.append_nil]
    rfl
  | cons c text ih =>
    have hnext := next?_utf8EncodeChar c (encode text)
    have hempty : (String.utf8EncodeChar c ++ encode text).isEmpty = false := by simp
    rw [encode_cons, decodeFrom, hempty, if_neg Bool.false_ne_true]
    split
    next hsome =>
      cases hnext.symm.trans hsome
      rw [ih]
      simp
    next hnone => cases hnext.symm.trans hnone

theorem eq_of_decodeFrom {seen : Array Char} (h : decodeFrom seen s = some text) :
    ∃ new, text = seen.toList ++ new ∧ s = encode new := by
  fun_induction decodeFrom seen s with
  | case1 seen s hs =>
    cases h
    exact ⟨[], (List.append_nil _).symm, List.isEmpty_iff.1 hs⟩
  | case2 seen s hs c rest hnext ih =>
    obtain ⟨new, rfl, rfl⟩ := ih h
    refine ⟨c :: new, by simp, ?_⟩
    rw [encode_cons]
    exact eq_of_next? hnext
  | case3 => cases h

/-- The bytes of a text, and no others, are decoded as that text. -/
theorem decode?_eq_some_iff : decode? s = some text ↔ s = encode text := by
  constructor
  · intro h
    obtain ⟨new, rfl, hs⟩ := eq_of_decodeFrom h
    exact hs
  · rintro rfl
    exact decodeFrom_encode #[] text

/-- Where the bytes of a text begin with those of another, so does the text. -/
theorem exists_of_encode_append (h : encode text = encode shown ++ s) :
    ∃ hidden, text = shown ++ hidden ∧ s = encode hidden := by
  induction shown generalizing text with
  | nil => exact ⟨text, rfl, h.symm⟩
  | cons c shown ih =>
    rw [encode_cons, List.append_assoc] at h
    cases text with
    | nil => exact absurd h.symm (by simp)
    | cons d text =>
      have hnext := next?_utf8EncodeChar d (encode text)
      rw [← encode_cons, h, next?_utf8EncodeChar] at hnext
      obtain ⟨rfl, hrest⟩ := Prod.mk.inj (Option.some.inj hnext)
      obtain ⟨hidden, rfl, hs⟩ := ih hrest.symm
      exact ⟨hidden, rfl, hs⟩

/-! ## Boundaries -/

/-- Of the bytes of a character only the first is not a tail. -/
theorem exists_utf8EncodeChar_eq (c : Char) :
    ∃ b tails, String.utf8EncodeChar c = b :: tails ∧ isTail b = false ∧
      ∀ t ∈ tails, isTail t = true := by
  have hlt := toNat_lt c
  have hfirst : ∀ {n : Nat}, n < 0x80 ∨ 0xc0 ≤ n → n < 256 → isTail (UInt8.ofNat n) = false := by
    intro n hn hbyte
    rw [← Bool.not_eq_true, isTail_iff, toNat_byte hbyte]
    omega
  fun_cases String.utf8EncodeChar c with
  | case1 n hone =>
    have hn : c.toNat = n := rfl
    exact ⟨_, _, rfl, hfirst (by omega) (by omega), List.forall_mem_nil _⟩
  | case2 n hone htwo =>
    have hn : c.toNat = n := rfl
    refine ⟨_, _, rfl, hfirst (by omega) (by omega), ?_⟩
    exact List.forall_mem_singleton.2 (isTail_tail _)
  | case3 n hone htwo hthree =>
    have hn : c.toNat = n := rfl
    refine ⟨_, _, rfl, hfirst (by omega) (by omega), ?_⟩
    exact List.forall_mem_cons.2 ⟨isTail_tail _, List.forall_mem_singleton.2 (isTail_tail _)⟩
  | case4 n hone htwo hthree =>
    have hn : c.toNat = n := rfl
    refine ⟨_, _, rfl, hfirst (by omega) (by omega), ?_⟩
    exact List.forall_mem_cons.2 ⟨isTail_tail _,
      List.forall_mem_cons.2 ⟨isTail_tail _, List.forall_mem_singleton.2 (isTail_tail _)⟩⟩

theorem isBoundary_append (p s : Bytes) (i : Nat) :
    isBoundary (p ++ s) (p.length + i) = isBoundary s i := by
  unfold isBoundary
  rw [List.getElem?_append_right (Nat.le_add_right ..), Nat.add_sub_cancel_left,
    List.length_append]
  cases s[i]? with
  | some b => rfl
  | none => simp

theorem isBoundary_zero (text : List Char) : isBoundary (encode text) 0 = true := by
  cases text with
  | nil => rfl
  | cons c text =>
    obtain ⟨b, tails, hc, hb, -⟩ := exists_utf8EncodeChar_eq c
    rw [encode_cons, hc]
    simp [isBoundary, hb]

theorem not_isBoundary_of_lt {i : Nat} (hi : i ≠ 0)
    (hlt : i < (String.utf8EncodeChar c).length) (s : Bytes) :
    isBoundary (String.utf8EncodeChar c ++ s) i = false := by
  obtain ⟨b, tails, hc, -, htails⟩ := exists_utf8EncodeChar_eq c
  obtain ⟨j, rfl⟩ := Nat.exists_eq_succ_of_ne_zero hi
  have hbyte : (String.utf8EncodeChar c)[j + 1] ∈ tails := by
    simp only [hc, List.getElem_cons_succ]
    exact List.getElem_mem _
  rw [isBoundary, List.getElem?_append_left hlt, List.getElem?_eq_getElem hlt]
  simp only [htails _ hbyte, Bool.not_true]

/-- The boundaries of a text are the places between two characters, and the two ends. -/
theorem isBoundary_encode_iff {i : Nat} :
    isBoundary (encode text) i = true ↔
      ∃ shown hidden, text = shown ++ hidden ∧ i = (encode shown).length := by
  constructor
  · intro h
    induction text generalizing i with
    | nil =>
      obtain rfl : i = 0 := by simpa [isBoundary] using h
      exact ⟨[], [], rfl, rfl⟩
    | cons c text ih =>
      rw [encode_cons] at h
      by_cases hzero : i = 0
      · exact ⟨[], c :: text, rfl, hzero⟩
      · rcases Nat.lt_or_ge i (String.utf8EncodeChar c).length with hlt | hle
        · rw [not_isBoundary_of_lt hzero hlt] at h
          cases h
        · obtain ⟨j, rfl⟩ := Nat.exists_eq_add_of_le hle
          rw [isBoundary_append] at h
          obtain ⟨shown, hidden, rfl, rfl⟩ := ih h
          exact ⟨c :: shown, hidden, rfl, by rw [encode_cons, List.length_append]⟩
  · rintro ⟨shown, hidden, rfl, rfl⟩
    rw [encode_append]
    exact (isBoundary_append _ _ 0).trans (isBoundary_zero hidden)

/-- The last boundary up to a place in a text. The character behind it has at most four bytes. -/
theorem exists_cut {n : Nat} (h : n < (encode text).length) :
    ∃ shown c hidden, text = shown ++ c :: hidden ∧ (encode shown).length ≤ n ∧
      n < (encode (shown ++ [c])).length ∧
      (encode (shown ++ [c])).length ≤ (encode shown).length + 4 := by
  induction text generalizing n with
  | nil => cases h
  | cons c text ih =>
    rw [encode_cons, List.length_append] at h
    rcases Nat.lt_or_ge n (String.utf8EncodeChar c).length with hlt | hle
    · have hfour := c.utf8Size_le_four
      rw [← String.length_utf8EncodeChar] at hfour
      rw [← encode_singleton] at hlt hfour
      exact ⟨[], c, text, rfl, Nat.zero_le n, hlt, by simpa using hfour⟩
    · obtain ⟨m, rfl⟩ := Nat.exists_eq_add_of_le hle
      obtain ⟨shown, d, hidden, rfl, hshown, hnext, hfour⟩ := ih (Nat.lt_of_add_lt_add_left h)
      have hcons : ∀ text, (encode (c :: text)).length =
          (String.utf8EncodeChar c).length + (encode text).length := fun text => by
        rw [encode_cons, List.length_append]
      have hshown' := hcons shown
      have hnext' := hcons (shown ++ [d])
      exact ⟨c :: shown, d, hidden, rfl, by omega, by rw [List.cons_append]; omega,
        by rw [List.cons_append]; omega⟩

end WireColumns.Utf8
