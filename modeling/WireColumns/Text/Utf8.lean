import WireColumns.Wire.Bytes

/-! # UTF-8

A character takes one to four bytes. The first byte tells how many; the others, the *tails*, are
those of the form `10xxxxxx`. Only the shortest form of a code point is valid, and the code points
of surrogates are not characters.
-/

namespace WireColumns.Utf8

/-- A byte that is not the first of its character. -/
def isTail (b : UInt8) : Bool := 0x80 ≤ b && b < 0xc0

/-- The six bits of a tail. -/
def tailBits (b : UInt8) : Nat := b.toNat - 0x80

/-- The character with a code point, if that is at least `least` and a valid one. -/
def charAt? (least code : Nat) : Option Char :=
  if h : least ≤ code ∧ code.isValidChar then some (Char.ofNatAux code h.2) else none

/-- The character at the front and the bytes behind it. -/
def next? : Bytes → Option (Char × Bytes)
  | [] => none
  | b :: s =>
    if b < 0x80 then (charAt? 0 b.toNat).map (·, s)
    else if 0xc0 ≤ b && b < 0xe0 then
      match s with
      | t :: s =>
        if isTail t then
          (charAt? 0x80 ((b.toNat - 0xc0) * 64 + tailBits t)).map (·, s)
        else none
      | _ => none
    else if 0xe0 ≤ b && b < 0xf0 then
      match s with
      | t :: u :: s =>
        if isTail t && isTail u then
          (charAt? 0x800 ((b.toNat - 0xe0) * 4096 + tailBits t * 64 + tailBits u)).map (·, s)
        else none
      | _ => none
    else if 0xf0 ≤ b && b < 0xf8 then
      match s with
      | t :: u :: v :: s =>
        if isTail t && isTail u && isTail v then
          (charAt? 0x10000 ((b.toNat - 0xf0) * 262144 + tailBits t * 4096 + tailBits u * 64 +
            tailBits v)).map (·, s)
        else none
      | _ => none
    else none

theorem next?_length_lt {s rest : Bytes} {c : Char} (h : next? s = some (c, rest)) :
    rest.length < s.length := by
  unfold next? at h
  repeat' split at h
  all_goals grind [Option.map_eq_some_iff]

/-- Decodes on behind the characters in `seen`. -/
def decodeFrom (seen : Array Char) (s : Bytes) : Option (List Char) :=
  if s.isEmpty then some seen.toList
  else
    match _h : next? s with
    | some (c, rest) => decodeFrom (seen.push c) rest
    | none => none
termination_by s.length
decreasing_by exact next?_length_lt _h

/-- The text in UTF-8, if the bytes are one. -/
def decode? (s : Bytes) : Option (List Char) := decodeFrom #[] s

/-- Whether a character may start or the text end in front of byte `i`. -/
def isBoundary (s : Bytes) (i : Nat) : Bool :=
  match s[i]? with
  | some b => !isTail b
  | none => i == s.length

end WireColumns.Utf8
