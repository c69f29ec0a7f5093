import WireColumns.Error
import WireColumns.Text.Blank
import WireColumns.Text.Pieces

/-! # Repetition patterns

The steps from the root of a record to a leaf column. The root step stands for the sequence of
records and is always repeated. An entry of the column tells with its *definition level* how far
down the path it has nodes, and with its *repetition level* how many of the repeated steps it
shares with the entry before it. The root is not counted in definition levels, so the greatest
definition level is one less than the number of steps that are not required, and the greatest
repetition level one less than the number of repeated steps.

Levels are 16-bit words.
-/

namespace WireColumns

namespace Repetition

/-- Reads the name of a repetition type, in either case, or its initial; `p` is for `repeated`. -/
def parse (name : String) : Except Error Repetition :=
  match name.toList.map Char.toLower |> String.ofList with
  | "required" | "r" => .ok required
  | "optional" | "o" => .ok optional
  | "repeated" | "p" => .ok repeated
  | _ => .error (.invalidArgument (.unknownRepetition name))

end Repetition

/-- The most steps a pattern can have. -/
def Pattern.maxSteps : Nat := 32767

/-- The repetition types of the steps of a path, the root first. -/
structure Pattern where
  steps : List Repetition
  root_repeated : steps.head? = some .repeated
  length_le : steps.length ≤ Pattern.maxSteps

namespace Pattern

/-- The pattern with the given steps, the root first. -/
def ofSteps (steps : List Repetition) : Except Error Pattern :=
  match h : steps.head? with
  | none => .error .emptyPattern
  | some root =>
    if hr : root = .repeated then
      if hl : steps.length ≤ maxSteps then .ok ⟨steps, hr ▸ h, hl⟩
      else .error (.invalidArgument (.patternTooDeep steps.length))
    else .error (.invalidArgument (.rootNotRepeated root))

/-- The pattern of a path from the leaf to the root. A sequence of records is repeated whatever a
schema calls its root, so the last step counts as repeated. -/
def ofLeafPath (path : List Repetition) : Except Error Pattern :=
  ofSteps (path.reverse.modifyHead fun _ => .repeated)

/-- The pattern written as a list of repetition types, the root first, with commas between them.
Blanks and empty items are passed over. -/
def parse (text : String) : Except Error Pattern := do
  let names := ((Text.splitOn ',' text.toList).map Text.trim).filter (!·.isEmpty)
  let steps ← names.mapM fun name => Repetition.parse (String.ofList name)
  ofSteps steps

/-- The number of steps with a property, as a level. The root is left out: it has it. -/
def levelOf (p : Pattern) (counts : Repetition → Bool) : Int16 :=
  Int16.ofNat (p.steps.countP counts) - 1

def maxDefinition (p : Pattern) : Int16 := p.levelOf (· != .required)

def maxRepetition (p : Pattern) : Int16 := p.levelOf (· == .repeated)

/-- The steps in front of the first one that lies too deep for the definition level, where
`nonRequired` of the steps passed are not required. -/
def definedFrom (definition nonRequired : Int16) (passed : Nat) : List Repetition → Nat
  | [] => passed
  | step :: rest =>
    let nonRequired := if step = .required then nonRequired else nonRequired + 1
    if definition + 1 < nonRequired then passed
    else definedFrom definition nonRequired (passed + 1) rest

/-- How many steps, from the root on, an entry has nodes at. With the greatest definition level it
has one at every step; and where all steps below the root are required, the level says nothing. -/
def definedSteps (p : Pattern) (definition : Int16) : Nat :=
  if 0 < p.maxDefinition ∧ definition < p.maxDefinition then definedFrom definition 0 0 p.steps
  else p.steps.length

/-- The steps up to the last repeated one that is shared, where `unwind` more of them are. -/
def sharedFrom (unwind : Int16) (passed : Nat) : List Repetition → Nat
  | [] => passed
  | step :: rest =>
    if 0 < unwind then
      sharedFrom (if step = .repeated then unwind - 1 else unwind) (passed + 1) rest
    else passed

/-- How many steps, from the root on, an entry shares with the entry before it: those up to the
repeated step that its repetition level counts to. -/
def sharedSteps (p : Pattern) (repetition : Int16) : Nat :=
  if 0 < p.maxRepetition then sharedFrom repetition 0 p.steps else 0

end Pattern

end WireColumns
