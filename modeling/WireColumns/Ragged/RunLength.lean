/-! # Run lengths

Applied to the parents of a column, the run lengths are the places of the values under their
parents.
-/

namespace WireColumns

variable {α : Type} [BEq α]

/-- Counts on behind a value that `run` values equal to it stand in front of. -/
def runLengthsFrom (previous : α) (run : Nat) (seen : Array Nat) : List α → List Nat
  | [] => seen.toList
  | x :: rest =>
    let run := if previous == x then run + 1 else 0
    runLengthsFrom x run (seen.push run) rest

/-- For each value the number of values equal to it that stand directly in front of it. -/
def runLengthsBefore : List α → List Nat
  | [] => []
  | x :: rest => runLengthsFrom x 0 #[0] rest

end WireColumns
