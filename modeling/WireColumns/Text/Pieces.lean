/-! # Texts with separators -/

namespace WireColumns.Text

/-- The pieces of a text between separators; one more than there are separators. -/
def splitOn (separator : Char) (text : List Char) : List (List Char) :=
  text.foldr
    (fun c pieces =>
      match pieces with
      | piece :: rest => if c = separator then [] :: piece :: rest else (c :: piece) :: rest
      | [] => [])
    [[]]

/-- The parts in front of and behind the first separator. -/
def splitOnce? (separator : Char) (text : List Char) : Option (List Char × List Char) :=
  match text.span (· != separator) with
  | (_, []) => none
  | (front, _ :: rest) => some (front, rest)

end WireColumns.Text
