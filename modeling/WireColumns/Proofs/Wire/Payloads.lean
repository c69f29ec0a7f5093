import WireColumns.Wire.Value

/-! # Values and payloads

What a kind reads as a value is all of a payload of its wire type: reading and skipping it end at
the same byte (`FieldKind.payload_of_read`). A varint is measured by another loop than it is decoded
by, so this is an induction over its bytes (`Varint.width_of_decode`). -/

namespace WireColumns

namespace Varint

theorem widthFrom_of_decodeFrom {s : Bytes} {i : Nat} {value v : BitVec 64} {n : Nat}
    (hi : i < maxWidth) (h : decodeFrom layout64 i value s = .ok (v, n)) :
    widthFrom i s = .ok n := by
  induction s generalizing i value with
  | nil => cases h
  | cons b s ih =>
    rw [decodeFrom] at h
    split at h
    next => cases h
    next hfit =>
      dsimp only at h
      rw [widthFrom, if_neg (Nat.not_le.2 hi)]
      split at h
      next hb =>
        cases h
        exact if_pos hb
      next hb =>
        -- a tenth byte that is not the last one would have been refused
        have hlast : i + 1 ≠ maxWidth := fun hlast =>
          hfit ⟨hlast, UInt8.lt_of_lt_of_le (by decide) (UInt8.not_lt.1 hb)⟩
        rw [if_neg hb]
        exact ih (Nat.lt_of_le_of_ne hi hlast) h

/-- A number that can be decoded is as wide as it is measured. -/
theorem width_of_decode {s : Bytes} {v : UInt64} {n : Nat} (h : decode s = .ok (v, n)) :
    width s = .ok n :=
  widthFrom_of_decodeFrom (by decide) (decode_eq_ok.1 h)

end Varint

namespace Read

variable {s rest : Bytes}

theorem rawVarint_of_varint {v : UInt64} (h : varint s = .ok v rest) :
    ∃ p, rawVarint s = .ok p rest := by
  simp only [varint] at h
  split at h
  next hs =>
    cases h
    exact ⟨_, by rw [rawVarint, Varint.width_of_decode hs]⟩
  next => cases h

theorem payload_of_lengthDelimited {data : Bytes} (h : lengthDelimited s = .ok data rest) :
    ∃ p, payload .lengthDelimited s = .ok p rest := by
  obtain ⟨parts, hparts, -⟩ := map_eq_ok_iff.1 h
  exact ⟨_, map_eq_ok_iff.2 ⟨parts, hparts, rfl⟩⟩

theorem payload_of_group {contents : Bytes} (h : group s = .ok contents rest) :
    ∃ p, payload .startGroup s = .ok p rest := by
  obtain ⟨parts, hparts, -⟩ := map_eq_ok_iff.1 h
  exact ⟨_, map_eq_ok_iff.2 ⟨parts, hparts, rfl⟩⟩

end Read

open Read

/-- What is read as a value can be skipped, and nothing else is taken then. -/
theorem FieldKind.payload_of_read {kind : FieldKind} {s rest : Bytes} {v : Value}
    (h : kind.read s = .ok v rest) : ∃ p, payload kind.wireType s = .ok p rest := by
  cases kind with
  | double | fixed64 | sfixed64 | float | fixed32 | sfixed32 =>
    obtain ⟨_, hread, -⟩ := map_eq_ok_iff.1 h
    obtain ⟨p, hbytes, -⟩ := map_eq_ok_iff.1 hread
    exact ⟨p, hbytes⟩
  | string | bytes | message =>
    obtain ⟨_, hread, -⟩ := map_eq_ok_iff.1 h
    exact payload_of_lengthDelimited hread
  | group =>
    obtain ⟨_, hread, -⟩ := map_eq_ok_iff.1 h
    exact payload_of_group hread
  | _ =>
    obtain ⟨_, hread, -⟩ := map_eq_ok_iff.1 h
    exact rawVarint_of_varint hread

end WireColumns
