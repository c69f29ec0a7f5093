/-! # Byte strings

Input is a list of bytes, read from the front. `Bytes.splitExact?` cuts a given number of bytes
off, or fails if there are not that many.
-/

namespace WireColumns

/-- A byte string. -/
abbrev Bytes := List UInt8

namespace Bytes

/-- The first `n` bytes and those behind them, if there are `n`. -/
def splitExact? (n : Nat) (s : Bytes) : Option (Bytes × Bytes) :=
  let (front, rest) := s.splitAt n
  if front.length = n then some (front, rest) else none

theorem splitExact?_eq (n : Nat) (s : Bytes) :
    splitExact? n s = if n ≤ s.length then some (s.take n, s.drop n) else none := by
  have : min n s.length = n ↔ n ≤ s.length := by omega
  simp [splitExact?, this]

theorem splitExact?_eq_some_iff {n : Nat} {s front rest : Bytes} :
    splitExact? n s = some (front, rest) ↔ front.length = n ∧ s = front ++ rest := by
  rw [splitExact?_eq]
  split
  · simp only [Option.some.injEq, Prod.mk.injEq]
    constructor
    · rintro ⟨rfl, rfl⟩
      simp [*]
    · rintro ⟨rfl, rfl⟩
      simp
  · simp only [reduceCtorEq, false_iff, not_and]
    rintro rfl rfl
    simp at *

end Bytes

end WireColumns
