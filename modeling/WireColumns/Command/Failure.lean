/-! # Failures of a command -/

namespace WireColumns

/-- Why a command failed, in general terms, and what was behind that, the more particular the
further back. -/
structure Failure where
  message : String
  causes : List String := []
  deriving DecidableEq, Repr

namespace Failure

/-- The message and its causes on one line. -/
def summary (f : Failure) : String := ": ".intercalate (f.message :: f.causes)

/-- What is printed when a command fails. -/
def report (f : Failure) : String :=
  let causes := match f.causes with
    | [] => ""
    | [cause] => s!"\n\nCaused by:\n    {cause}"
    | causes => "\n\nCaused by:" ++
      String.join (causes.zipIdx.map fun ((cause, i) : String × Nat) => s!"\n    {i}: {cause}")
  s!"Error: {f.message}{causes}"

end Failure

end WireColumns
