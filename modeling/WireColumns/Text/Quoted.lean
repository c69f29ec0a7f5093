import WireColumns.Text.Hidden

/-! # Quoted texts

A text between double quotes, with escapes for the quote, the backslash, the usual control
characters and all characters that do not show.
-/

namespace WireColumns.Text

/-- The digit of a number below 16. -/
def hexDigit (n : Nat) : Char := ("0123456789abcdef".toList[n]?).getD '0'

/-- The hexadecimal digits of a number, at least one. -/
def hexDigits (n : Nat) : List Char :=
  if n < 16 then [hexDigit n] else hexDigits (n / 16) ++ [hexDigit (n % 16)]

/-- A number with `width` hexadecimal digits, or more if it needs them. -/
def hexPadded (width n : Nat) : List Char :=
  let digits := hexDigits n
  List.replicate (width - digits.length) '0' ++ digits

/-- How a character appears in a quoted text. -/
def escapeChar (c : Char) : List Char :=
  if c = '\x00' then ['\\', '0']
  else if c = '\t' then ['\\', 't']
  else if c = '\r' then ['\\', 'r']
  else if c = '\n' then ['\\', 'n']
  else if c = '"' then ['\\', '"']
  else if c = '\\' then ['\\', '\\']
  else if isHidden c then ['\\', 'u', '\x7b'] ++ hexDigits c.toNat ++ ['\x7d']
  else [c]

/-- The text in quotes. -/
def quote (text : List Char) : List Char := '"' :: text.flatMap escapeChar ++ ['"']

end WireColumns.Text
