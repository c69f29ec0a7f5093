/-! # Integer literals

A literal is an optional sign and decimal digits, as many as one likes. It is read from left to
right as a number of a fixed format and refused at the first character that is no digit or takes
the number out of range.
-/

namespace WireColumns.Decimal

/-- A fixed-width integer format. -/
structure IntegerFormat where
  isSigned : Bool
  bits : Nat
  deriving DecidableEq, Repr

namespace IntegerFormat

def int16 : IntegerFormat := ⟨true, 16⟩
def int32 : IntegerFormat := ⟨true, 32⟩
def int64 : IntegerFormat := ⟨true, 64⟩
def uint32 : IntegerFormat := ⟨false, 32⟩
def uint64 : IntegerFormat := ⟨false, 64⟩

/-- The least number of the format. -/
def least (f : IntegerFormat) : Int := if f.isSigned then -(Nat.pow 2 (f.bits - 1) : Int) else 0

/-- The greatest number of the format. -/
def greatest (f : IntegerFormat) : Int :=
  if f.isSigned then (Nat.pow 2 (f.bits - 1) : Int) - 1 else (Nat.pow 2 f.bits : Int) - 1

end IntegerFormat

/-- Why a text is no integer literal. -/
inductive BadLiteral
  | empty
  | badDigit
  | tooLarge
  | tooSmall
  deriving DecidableEq, Repr

namespace BadLiteral

def message : BadLiteral → String
  | empty => "cannot parse integer from empty string"
  | badDigit => "invalid digit found in string"
  | tooLarge => "number too large to fit in target type"
  | tooSmall => "number too small to fit in target type"

end BadLiteral

/-- The value of a decimal digit. -/
def digit? (c : Char) : Option Nat :=
  if '0' ≤ c ∧ c ≤ '9' then some (c.toNat - '0'.toNat) else none

/-- Reads on behind digits that make up `value`. -/
def parseDigits (f : IntegerFormat) (isNegative : Bool) (value : Int) :
    List Char → Except BadLiteral Int
  | [] => .ok value
  | c :: rest =>
    match digit? c with
    | none => .error .badDigit
    | some d =>
      let value := if isNegative then value * 10 - d else value * 10 + d
      if f.greatest < value then .error .tooLarge
      else if value < f.least then .error .tooSmall
      else parseDigits f isNegative value rest

/-- The number a literal stands for. Only signed formats admit a minus sign. -/
def parseInteger (f : IntegerFormat) (text : List Char) : Except BadLiteral Int :=
  match text with
  | [] => .error .empty
  | '+' :: digits => if digits = [] then .error .badDigit else parseDigits f false 0 digits
  | '-' :: digits =>
    if f.isSigned = false ∨ digits = [] then .error .badDigit else parseDigits f true 0 digits
  | digits => parseDigits f false 0 digits

end WireColumns.Decimal
