/-! # Shortest decimals

The shortest decimal numeral that reads back as a given floating-point number. A finite number is
`m · 2 ^ q` for natural `m`; the reals that round to it form an interval around it, of which the
ends belong to it if `m` is even. From coarse to fine grids of decimal numerals, the first that
has a point in the interval is taken, and on it the point nearest to the number; of two that are
equally near, the even one.
-/

namespace WireColumns.Decimal

/-- A decimal numeral: a sign, and digits with a power of ten. -/
structure Numeral where
  isNegative : Bool
  digits : Nat
  exponent : Int
  deriving DecidableEq, Repr

/-- A finite floating-point number: `significand · 2 ^ exponent`. -/
structure Binary where
  isNegative : Bool
  significand : Nat
  exponent : Int
  deriving DecidableEq, Repr

namespace Binary

/-- The number with the given 64 bits, if it is finite. -/
def ofBits64? (bits : UInt64) : Option Binary :=
  let isNegative := bits >>> 63 != 0
  let biased := ((bits >>> 52) &&& 0x7ff).toNat
  let fraction := (bits &&& 0xfffffffffffff).toNat
  if biased = 0x7ff then none
  else if biased = 0 then some ⟨isNegative, fraction, -1074⟩
  else some ⟨isNegative, fraction + Nat.pow 2 52, (biased : Int) - 1075⟩

/-- The number with the given 32 bits, if it is finite. -/
def ofBits32? (bits : UInt32) : Option Binary :=
  let isNegative := bits >>> 31 != 0
  let biased := ((bits >>> 23) &&& 0xff).toNat
  let fraction := (bits &&& 0x7fffff).toNat
  if biased = 0xff then none
  else if biased = 0 then some ⟨isNegative, fraction, -149⟩
  else some ⟨isNegative, fraction + Nat.pow 2 23, (biased : Int) - 150⟩

/-- The same number with a significand of 53 bits, if it has fewer. -/
def widen (b : Binary) : Binary :=
  let shift := 52 - b.significand.log2
  if b.significand = 0 then b
  else { b with significand := b.significand * Nat.pow 2 shift, exponent := b.exponent - shift }

end Binary

/-- The interval of reals that round to a number, in quarters of a unit of its significand. -/
structure Interval where
  low : Nat
  value : Nat
  high : Nat
  /-- whether the ends belong to the interval -/
  isClosed : Bool

/-- The interval of a number of 64 bits that is not 0. Below a power of two the numbers lie twice
as close as above it. -/
def Interval.ofBinary (b : Binary) : Interval :=
  let m := b.significand
  let below := if m = Nat.pow 2 52 ∧ -1074 < b.exponent then 1 else 2
  ⟨4 * m - below, 4 * m, 4 * m + 2, m % 2 == 0⟩

/-- The multiple of `10 ^ e` in the interval that is nearest to its value, if there is one, and the
even multiple if two are equally near. The interval is in units of `2 ^ q`. -/
def Interval.pointOn? (i : Interval) (q e : Int) : Option Nat :=
  let scale := Nat.pow 2 q.toNat * Nat.pow 10 (-e).toNat
  let unit := Nat.pow 2 (-q).toNat * Nat.pow 10 e.toNat
  let contains := fun c : Nat =>
    if i.isClosed then i.low * scale ≤ c * unit ∧ c * unit ≤ i.high * scale
    else i.low * scale < c * unit ∧ c * unit < i.high * scale
  let below := i.value * scale / unit
  let rest := i.value * scale - below * unit
  let isAboveNearer := if 2 * rest = unit then below % 2 = 1 else unit < 2 * rest
  if contains below then
    if contains (below + 1) ∧ isAboveNearer then some (below + 1) else some below
  else if contains (below + 1) then some (below + 1)
  else none

/-- The first point of the interval on the grids of the powers of ten from `e` downwards. -/
def Interval.firstPoint (i : Interval) (q e : Int) : Nat → Nat × Int
  | 0 => (0, 0)
  | fuel + 1 =>
    match i.pointOn? q e with
    | some digits => (digits, e)
    | none => i.firstPoint q (e - 1) fuel

/-- The shortest numeral that reads back as the number of 64 bits. Its first grid has no point
between 0 and the number; seventeen digits below the number's first one are always enough. -/
def shortest (b : Binary) : Numeral :=
  if b.significand = 0 then ⟨b.isNegative, 0, 0⟩
  else
    let top := (((b.significand.log2 : Int) + 1 + b.exponent) * 30103) / 100000 + 1
    let (digits, exponent) := (Interval.ofBinary b).firstPoint (b.exponent - 2) top 25
    ⟨b.isNegative, digits, exponent⟩

end WireColumns.Decimal
