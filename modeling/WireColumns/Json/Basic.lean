import WireColumns.Decimal.Shortest

/-! # JSON values -/

namespace WireColumns

/-- A JSON value. The text of a string is missing if one of its escapes names half of a surrogate
pair, which no character is made of. -/
inductive Json
  | null
  | bool (value : Bool)
  | integer (value : Int)
  /-- a number with a fraction or an exponent, or the integer `-0` -/
  | decimal (value : Decimal.Numeral)
  | string (text? : Option String)
  | array (items : List Json)
  /-- the members in order; names may be repeated -/
  | object (members : List (Option String × Json))
  deriving Inhabited

namespace Json

/-- A string with a text. -/
def text (text : String) : Json := string (some text)

/-- An object with its members in the order of their names. -/
def record (members : List (String × Json)) : Json :=
  object <| (members.mergeSort fun a b => decide (a.1 ≤ b.1)).map fun (name, value) =>
    (some name, value)

/-- The members of an object with the given name. -/
def members (name : String) (object : List (Option String × Json)) : List Json :=
  object.filterMap fun (n, value) => if n = some name then some value else none

end Json

end WireColumns
