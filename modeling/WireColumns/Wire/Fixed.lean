import WireColumns.Wire.Bytes

/-! # Numbers of fixed width

A number in as many bytes as its width has, the lowest first.
-/

namespace WireColumns.Fixed

variable {w : Nat}

/-- The number that the bytes hold. -/
def decode : Bytes → BitVec w
  | [] => 0#w
  | b :: rest => b.toBitVec.setWidth w ||| decode rest <<< 8

/-- The lowest `n` bytes of a number. -/
def encode : Nat → BitVec w → Bytes
  | 0, _ => []
  | n + 1, x => .ofBitVec (x.setWidth 8) :: encode n (x >>> 8)

@[simp] theorem length_encode (n : Nat) (x : BitVec w) : (encode n x).length = n := by
  induction n generalizing x with
  | zero => rfl
  | succ n ih => rw [encode, List.length_cons, ih]

end WireColumns.Fixed
