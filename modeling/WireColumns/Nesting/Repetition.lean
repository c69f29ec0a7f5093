/-! # Repetition types

Each step on the path from the root of a record to a leaf says how many children a parent has
there.
-/

namespace WireColumns

/-- How many nodes a step has under one parent. -/
inductive Repetition
  /-- exactly one -/
  | required
  /-- none or one -/
  | optional
  /-- any number -/
  | repeated
  deriving DecidableEq, Repr, Inhabited

namespace Repetition

def name : Repetition → String
  | required => "required"
  | optional => "optional"
  | repeated => "repeated"

end Repetition

end WireColumns
