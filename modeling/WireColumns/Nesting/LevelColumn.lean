import WireColumns.Error

/-! # Level columns

A leaf column as a list of entries, each with its levels and, if the leaf is there, a value.
-/

namespace WireColumns

/-- One entry of a leaf column. -/
structure LevelEntry (α : Type) where
  definition : Int16
  repetition : Int16
  value? : Option α
  deriving DecidableEq, Repr

/-- A leaf column and a position in it. -/
structure LevelColumn (α : Type) where
  /-- how many entries the column has -/
  size : Nat
  /-- the entries from the position on -/
  rest : List (LevelEntry α)
  deriving DecidableEq, Repr

namespace LevelColumn

variable {α : Type}

/-- The start of the column with the given entries. -/
def ofEntries (entries : List (LevelEntry α)) : LevelColumn α := ⟨entries.length, entries⟩

/-- Gives the values in order to the entries whose definition level is `present`, behind the
entries in `seen`. -/
def assignFrom (present : Int16) (seen : Array (LevelEntry α)) :
    List (Int16 × Int16) → List α → Except Misuse (List (LevelEntry α))
  | [], [] => .ok seen.toList
  | [], _ :: _ => .error .tooManyValues
  | (definition, repetition) :: levels, values =>
    if definition = present then
      match values with
      | [] => .error .tooFewValues
      | value :: values =>
        assignFrom present (seen.push ⟨definition, repetition, some value⟩) levels values
    else assignFrom present (seen.push ⟨definition, repetition, none⟩) levels values

/-- The column with the given levels, and with the values for the entries whose definition level
is `present`. -/
def ofLevels (definitions repetitions : List Int16) (values : List α) (present : Int16) :
    Except Error (LevelColumn α) :=
  if definitions.length ≠ repetitions.length then
    .error (.invalidArgument (.levelColumnLengths definitions.length repetitions.length))
  else
    match assignFrom present #[] (definitions.zip repetitions) values with
    | .ok entries => .ok (ofEntries entries)
    | .error misuse => .error (.invalidArgument misuse)

/-- The levels of the current entry. -/
def levels? (c : LevelColumn α) : Option (Int16 × Int16) :=
  c.rest.head?.map fun e => (e.definition, e.repetition)

/-- The value of the current entry, if it has one. -/
def value? (c : LevelColumn α) : Option α := c.rest.head?.bind (·.value?)

/-- Moves to the next entry. -/
def advance : EStateM Error (LevelColumn α) Unit := fun c =>
  match c.rest with
  | [] => .error .endOfColumn c
  | _ :: rest => .ok () { c with rest }

end LevelColumn

end WireColumns
