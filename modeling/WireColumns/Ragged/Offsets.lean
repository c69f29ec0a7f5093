import WireColumns.Error

/-! # List offsets

A column whose parents ascend is a sequence of lists, one per parent. The offsets are the
positions at which the lists start, and at last the number of values: list `p` reaches from
offset `p` to offset `p + 1`.
-/

namespace WireColumns

/-- Goes on with the parents from `position` on. The offsets so far are those of the lists that
start in front of `position`; the last parent has been `previous`. -/
def offsetsFrom (parentCount : Nat) (previous : Int) (position : Nat) (offsets : Array Nat) :
    List Int → Except Misuse (Array Nat)
  | [] => .ok (offsets ++ Array.replicate (parentCount + 1 - offsets.size) position)
  | parent :: rest =>
    if parent < previous ∨ parentCount ≤ parent then
      .error (.badParentIndex parent position parentCount)
    else
      let starts := Array.replicate (parent.toNat + 1 - offsets.size) position
      offsetsFrom parentCount parent (position + 1) (offsets ++ starts) rest

/-- The offsets of one list per parent. The parents must ascend from 0 and stay below
`parentCount`. There are `parentCount + 1` offsets; where counts are words of 64 bits this number
must be one too, so `parentCount + 1 < 2 ^ 64`, as it is wherever so many offsets can be stored. -/
def listOffsets (parents : List Int) (parentCount : Nat) : Except Error (List Nat) :=
  match offsetsFrom parentCount 0 0 #[0] parents with
  | .ok offsets => .ok offsets.toList
  | .error misuse => .error (.invalidArgument misuse)

end WireColumns
