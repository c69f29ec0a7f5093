import WireColumns.Error

/-! # Joins on equality

A join lists the pairs of positions at which two columns hold equal values, by the position on the
left and then by the one on the right. Sorted columns are merged; for others every pair is
compared.
-/

namespace WireColumns.Join

variable {α : Type}

/-- Whether no value is less than the one in front of it. -/
def isSorted [Ord α] : List α → Bool
  | x :: y :: rest => compare x y != .gt && isSorted (y :: rest)
  | _ => true

/-- The positions, from `j` on, of the values at the front of a list that equal `x`. -/
def runPositions [Ord α] (x : α) (j : Nat) : List α → List Nat
  | [] => []
  | y :: rest => if compare x y == .eq then j :: runPositions x (j + 1) rest else []

/-- Merges two columns from positions `i` and `j` on. The position on the right stays at the start
of a run of equal values, so that the next equal value on the left meets the same run. -/
def mergeFrom [Ord α] (seen : Array (Nat × Nat)) (i j : Nat) : List α → List α → List (Nat × Nat)
  | x :: xs, y :: ys =>
    match compare x y with
    | .lt => mergeFrom seen (i + 1) j xs (y :: ys)
    | .gt => mergeFrom seen i (j + 1) (x :: xs) ys
    | .eq =>
      let pairs := (runPositions x j (y :: ys)).map fun k => (i, k)
      mergeFrom (seen ++ pairs) (i + 1) j xs (y :: ys)
  | _, _ => seen.toList
termination_by xs ys => xs.length + ys.length

/-- The join of two sorted columns. -/
def sorted [Ord α] (a b : List α) : Except Error (List (Nat × Nat)) :=
  if !isSorted a then .error (.invalidArgument (.unsorted "a"))
  else if !isSorted b then .error (.invalidArgument (.unsorted "b"))
  else .ok (mergeFrom #[] 0 0 a b)

/-- The join of two columns in any order. -/
def any [BEq α] (a b : List α) : List (Nat × Nat) :=
  a.zipIdx.flatMap fun (x, i) =>
    (b.zipIdx.filter fun (y, _) => x == y).map fun (_, j) => (i, j)

end WireColumns.Join
