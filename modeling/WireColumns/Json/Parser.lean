import WireColumns.Decimal.Literal
import WireColumns.Json.Basic

/-! # JSON texts: reading

Reading follows the grammar of the format and nothing else: names may be repeated, numbers may
have any size and values any depth.
-/

namespace WireColumns.Json

def isSpace (c : Char) : Bool := c == ' ' || c == '\n' || c == '\t' || c == '\r'

/-! ## Numbers -/

/-- The digits at the front of a text and what follows them. -/
def spanDigits (s : List Char) : List Char × List Char :=
  s.span fun c => (Decimal.digit? c).isSome

/-- The number that digits stand for. -/
def digitsValue (digits : List Char) : Nat :=
  digits.foldl (fun n c => 10 * n + (Decimal.digit? c).getD 0) 0

/-- The exponent at the front of a text, 0 if there is none. -/
def readExponent? (s : List Char) : Option (Option Int × List Char) :=
  match s with
  | e :: s =>
    if e = 'e' ∨ e = 'E' then
      let (isNegative, s) := match s with
        | '+' :: s => (false, s)
        | '-' :: s => (true, s)
        | s => (false, s)
      match spanDigits s with
      | ([], _) => none
      | (digits, rest) =>
        let n : Int := digitsValue digits
        some (some (if isNegative then -n else n), rest)
    else some (none, e :: s)
  | [] => some (none, [])

/-- The fraction at the front of a text, as its digits. -/
def readFraction? (s : List Char) : Option (Option (List Char) × List Char) :=
  match s with
  | '.' :: s =>
    match spanDigits s with
    | ([], _) => none
    | (digits, rest) => some (some digits, rest)
  | s => some (none, s)

/-- The number at the front of a text. Only the number 0 may start with that digit. -/
def readNumber? (s : List Char) : Option (Json × List Char) := do
  let (isNegative, s) := match s with
    | '-' :: s => (true, s)
    | s => (false, s)
  let (whole, s) := spanDigits s
  if whole = [] ∨ (whole.head? = some '0' ∧ whole.length ≠ 1) then none
  let (fraction?, s) ← readFraction? s
  let (exponent?, s) ← readExponent? s
  let fraction := fraction?.getD []
  let n := digitsValue (whole ++ fraction)
  if fraction?.isNone ∧ exponent?.isNone ∧ ¬ (isNegative ∧ n = 0) then
    some (integer (if isNegative then -n else n), s)
  else
    some (decimal ⟨isNegative, n, exponent?.getD 0 - fraction.length⟩, s)

/-! ## Strings -/

/-- A part of a string: a character, or an escape that names a 16-bit unit. -/
inductive StringPart
  | char (c : Char)
  | unit (n : Nat)

/-- The value of a hexadecimal digit. -/
def hexDigit? (c : Char) : Option Nat :=
  if '0' ≤ c ∧ c ≤ '9' then some (c.toNat - '0'.toNat)
  else if 'a' ≤ c ∧ c ≤ 'f' then some (c.toNat - 'a'.toNat + 10)
  else if 'A' ≤ c ∧ c ≤ 'F' then some (c.toNat - 'A'.toNat + 10)
  else none

/-- The character that stands behind a backslash for a single other one. -/
def simpleEscape? : Char → Option Char
  | '"' => some '"'
  | '\\' => some '\\'
  | '/' => some '/'
  | 'b' => some '\x08'
  | 'f' => some '\x0c'
  | 'n' => some '\n'
  | 'r' => some '\r'
  | 't' => some '\t'
  | _ => none

/-- The parts of a string up to its closing quote, behind those in `seen`. -/
def readParts? (seen : Array StringPart) : List Char → Option (List StringPart × List Char)
  | [] => none
  | '"' :: rest => some (seen.toList, rest)
  | '\\' :: 'u' :: a :: b :: c :: d :: rest =>
    match hexDigit? a, hexDigit? b, hexDigit? c, hexDigit? d with
    | some a, some b, some c, some d =>
      readParts? (seen.push (.unit (a * 4096 + b * 256 + c * 16 + d))) rest
    | _, _, _, _ => none
  | '\\' :: c :: rest =>
    match simpleEscape? c with
    | some c => readParts? (seen.push (.char c)) rest
    | none => none
  | c :: rest => if c.toNat < 0x20 ∨ c = '\\' then none else readParts? (seen.push (.char c)) rest

/-- The text that parts make up behind `seen`. Units of a surrogate pair make up one character,
and half a pair none. -/
def assemble? (seen : Array Char) : List StringPart → Option (List Char)
  | [] => some seen.toList
  | .char c :: rest => assemble? (seen.push c) rest
  | .unit n :: .unit m :: rest =>
    if 0xd800 ≤ n ∧ n < 0xdc00 then
      if 0xdc00 ≤ m ∧ m < 0xe000 then
        assemble? (seen.push (Char.ofNat (0x10000 + (n - 0xd800) * 0x400 + (m - 0xdc00)))) rest
      else none
    else if 0xdc00 ≤ n ∧ n < 0xe000 then none
    else assemble? (seen.push (Char.ofNat n)) (.unit m :: rest)
  | .unit n :: rest =>
    if 0xd800 ≤ n ∧ n < 0xe000 then none else assemble? (seen.push (Char.ofNat n)) rest

/-- The text of a string whose opening quote has been read. -/
def readText? (s : List Char) : Option (Option String × List Char) := do
  let (parts, rest) ← readParts? #[] s
  some ((assemble? #[] parts).map String.ofList, rest)

/-! ## Values -/

mutual

/-- The value at the front of a text. -/
def readValue? : Nat → List Char → Option (Json × List Char)
  | 0, _ => none
  | fuel + 1, s =>
    match s.dropWhile isSpace with
    | '[' :: s =>
      match s.dropWhile isSpace with
      | ']' :: rest => some (array [], rest)
      | s => readItems? fuel #[] s
    | '\x7b' :: s =>
      match s.dropWhile isSpace with
      | '\x7d' :: rest => some (object [], rest)
      | s => readMembers? fuel #[] s
    | '"' :: s => (readText? s).map fun (text?, rest) => (string text?, rest)
    | 't' :: 'r' :: 'u' :: 'e' :: rest => some (bool true, rest)
    | 'f' :: 'a' :: 'l' :: 's' :: 'e' :: rest => some (bool false, rest)
    | 'n' :: 'u' :: 'l' :: 'l' :: rest => some (null, rest)
    | s => readNumber? s

/-- The array of which the items in `seen` have been read and another one follows. -/
def readItems? : Nat → Array Json → List Char → Option (Json × List Char)
  | 0, _, _ => none
  | fuel + 1, seen, s =>
    match readValue? fuel s with
    | none => none
    | some (item, s) =>
      match s.dropWhile isSpace with
      | ',' :: s => readItems? fuel (seen.push item) s
      | ']' :: rest => some (array (seen.push item).toList, rest)
      | _ => none

/-- The object of which the members in `seen` have been read and another one follows. -/
def readMembers? : Nat → Array (Option String × Json) → List Char → Option (Json × List Char)
  | 0, _, _ => none
  | fuel + 1, seen, s =>
    match s.dropWhile isSpace with
    | '"' :: s =>
      match readText? s with
      | none => none
      | some (name, s) =>
        match s.dropWhile isSpace with
        | ':' :: s =>
          match readValue? fuel s with
          | none => none
          | some (value, s) =>
            match s.dropWhile isSpace with
            | ',' :: s => readMembers? fuel (seen.push (name, value)) s
            | '\x7d' :: rest => some (object (seen.push (name, value)).toList, rest)
            | _ => none
        | _ => none
    | _ => none

end

/-- The value that a text stands for, if it is one in the format. Every second step at least takes
a character, so twice the length is fuel enough. -/
def parse? (s : List Char) : Option Json := do
  let (value, rest) ← readValue? (2 * s.length + 2) s
  if rest.dropWhile isSpace = [] then some value else none

end WireColumns.Json
