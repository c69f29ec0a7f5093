import WireColumns.Json.Basic
import WireColumns.Text.Quoted

/-! # JSON texts: writing -/

namespace WireColumns.Json

/-- Where a value's parts stand. -/
inductive Layout
  /-- all on one line, without blanks -/
  | compact
  /-- each part on a line of its own, indented by two blanks per level -/
  | indented
  deriving DecidableEq

namespace Layout

/-- What stands in front of a part at the given depth. -/
def newline (layout : Layout) (depth : Nat) : String :=
  match layout with
  | compact => ""
  | indented => String.ofList ('\n' :: List.replicate (2 * depth) ' ')

/-- What stands between a name and its value. -/
def colon : Layout → String
  | compact => ":"
  | indented => ": "

end Layout

/-- How a character appears in a string. -/
def escapeChar (c : Char) : List Char :=
  if c = '"' then ['\\', '"']
  else if c = '\\' then ['\\', '\\']
  else if c = '\x08' then ['\\', 'b']
  else if c = '\x0c' then ['\\', 'f']
  else if c = '\n' then ['\\', 'n']
  else if c = '\r' then ['\\', 'r']
  else if c = '\t' then ['\\', 't']
  else if c.toNat < 0x20 then ['\\', 'u'] ++ Text.hexPadded 4 c.toNat
  else [c]

/-- Writes a string behind `out`. A string without a text is written as null. -/
def stringInto (out : String) : Option String → String
  | none => out ++ "null"
  | some text =>
    (text.foldl (fun out c => (escapeChar c).foldl String.push out) (out.push '"')).push '"'

/-- How a power of ten appears behind a numeral: its exponent always has a sign. -/
def powerOfTen (exponent : Int) : List Char :=
  'e' :: (if 0 ≤ exponent then ['+'] else []) ++ (toString exponent).toList

/-- A numeral is written without a power of ten, and then with at least one place behind the point,
if its first digit stands from 16 places in front of the point to 5 places behind it. -/
def numeral (n : Decimal.Numeral) : String :=
  let digits := (toString n.digits).toList
  let point : Int := digits.length + n.exponent
  let magnitude :=
    if n.digits = 0 then ['0', '.', '0']
    else if 0 ≤ n.exponent ∧ point ≤ 16 then
      digits ++ List.replicate n.exponent.toNat '0' ++ ['.', '0']
    else if 0 < point ∧ point ≤ 16 then
      digits.take point.toNat ++ '.' :: digits.drop point.toNat
    else if -5 < point ∧ point ≤ 0 then
      ['0', '.'] ++ List.replicate (-point).toNat '0' ++ digits
    else
      let fraction := if digits.length = 1 then [] else '.' :: digits.drop 1
      digits.take 1 ++ fraction ++ powerOfTen (point - 1)
  String.ofList (if n.isNegative then '-' :: magnitude else magnitude)

mutual

/-- Writes a value, which stands at the given depth, behind `out`. -/
def renderInto (layout : Layout) (depth : Nat) (out : String) : Json → String
  | null => out ++ "null"
  | bool value => out ++ (if value then "true" else "false")
  | integer value => out ++ toString value
  | decimal value => out ++ numeral value
  | string text? => stringInto out text?
  | array [] => out ++ "[]"
  | array items =>
    (itemsInto layout (depth + 1) "" (out.push '[') items ++ layout.newline depth).push ']'
  | object [] => (out.push '\x7b').push '\x7d'
  | object members =>
    let out := membersInto layout (depth + 1) "" (out.push '\x7b') members
    (out ++ layout.newline depth).push '\x7d'

/-- Writes the items of an array, the first one behind `separator`. -/
def itemsInto (layout : Layout) (depth : Nat) (separator out : String) : List Json → String
  | [] => out
  | item :: rest =>
    itemsInto layout depth ","
      (renderInto layout depth (out ++ separator ++ layout.newline depth) item) rest

/-- Writes the members of an object, the first one behind `separator`. -/
def membersInto (layout : Layout) (depth : Nat) (separator out : String) :
    List (Option String × Json) → String
  | [] => out
  | (name, value) :: rest =>
    let out := stringInto (out ++ separator ++ layout.newline depth) name ++ layout.colon
    membersInto layout depth "," (renderInto layout depth out value) rest

end

/-- The text of a value. -/
def render (layout : Layout) (value : Json) : String := renderInto layout 0 "" value

/-- The numeral for a floating-point number with the given bits, or null if it is not finite. -/
def ofDouble (bits : UInt64) : Json :=
  match Decimal.Binary.ofBits64? bits with
  | some b => decimal (Decimal.shortest b)
  | none => null

/-- A number of 32 bits is written as the number of 64 bits that equals it. -/
def ofFloat (bits : UInt32) : Json :=
  match Decimal.Binary.ofBits32? bits with
  | some b => decimal (Decimal.shortest b.widen)
  | none => null

end WireColumns.Json
