import TinyC.Numeral.Binary
import TinyC.Numeral.Integer

/-!
# Decimal numbers

Reading a decimal as the nearest `binary64`, and writing a `binary64` with the fewest digits that
read back as it. `Decimal.shortest` is a plain search: on the grid of one digit, then of two, and
so on, it looks at the two neighbours of the number and takes the first that rounds to it.
-/

namespace TinyC

/-- The number `digits * 10 ^ exponent`. -/
structure Decimal where
  digits : Nat
  exponent : Int
deriving DecidableEq, Repr

namespace Decimal

/-! ## Reading -/

/-- The decimal with these digits before and after the point, times a power of ten. -/
def ofParts (whole fraction : List Char) (exponent : Int) : Decimal :=
  ⟨ofDigits 10 (whole ++ fraction), exponent - fraction.length⟩

/-- The nearest number of the format `binary64`. The powers of ten are computed only for decimals
that can round to a finite number other than zero: one above `10 ^ 400` is infinite and one below
`10 ^ (-399)` vanishes. -/
def toBinary64 (d : Decimal) : Binary64 :=
  .ofMagnitude false <|
    if d.digits = 0 then 0
    else if 400 < d.exponent then Format.binary64.infinity
    else if 0 ≤ d.exponent then Format.binary64.round (d.digits * Nat.pow 10 d.exponent.toNat) 1
    else if d.exponent + d.digits.log2 < -400 then 0
    else Format.binary64.round d.digits (Nat.pow 10 (-d.exponent).toNat)

/-! ## Shortest digits -/

/-- A number and the ends of the interval that rounds to it, as numerators over `2 ^ 1076`, after
multiplication by `10 ^ 345`, which makes even the least positive number larger than one. -/
structure Interval where
  low : Nat
  middle : Nat
  high : Nat
  /-- Whether the ends round to the number too. -/
  closed : Bool

namespace Interval

/-- The interval of a positive finite number. Just above a power of two the numbers below are twice
as dense, and an end is a tie, which goes to the even significand. -/
def ofBinary64 (x : Binary64) : Interval :=
  let unit := Nat.pow 2 (x.place - 1) * Nat.pow 10 345
  let middle := 4 * x.significand * unit
  { low := middle - (if x.fraction = 0 && 1 < x.place then unit else 2 * unit)
    middle
    high := middle + 2 * unit
    closed := x.significand % 2 = 0 }

def contains (i : Interval) (n : Nat) : Bool :=
  (i.low < n && n < i.high) || (i.closed && (n = i.low || n = i.high))

/-- The number of digits before the point of the middle. -/
def width (i : Interval) : Nat := (Nat.toDigits 10 (i.middle / Nat.pow 2 1076)).length

/-- The multiple of `step` next to the middle that lies in the interval: the nearer of two, the
upper one of two equally near. -/
def neighbour? (i : Interval) (step : Nat) : Option Nat :=
  let below := i.middle / step
  match i.contains (below * step), i.contains ((below + 1) * step) with
  | true, true => some (if 2 * (i.middle - below * step) < step then below else below + 1)
  | true, false => some below
  | false, true => some (below + 1)
  | false, false => none

/-- The neighbour with `n` digits. -/
def withDigits? (i : Interval) (n : Nat) : Option Decimal :=
  (i.neighbour? (Nat.pow 10 (i.width - n) * Nat.pow 2 1076)).map fun digits =>
    ⟨digits, (i.width : Int) - n - 345⟩

end Interval

/-- A decimal of least length that reads back as a positive finite number, the nearest one of that
length. Seventeen digits always suffice. -/
def shortest (x : Binary64) : Decimal :=
  let interval := Interval.ofBinary64 x
  ((List.range 17).findSome? fun n => interval.withDigits? (n + 1)).getD ⟨0, 0⟩

/-! ## Text -/

/-- Which numbers are written without an exponent: those whose first digit stands for a power of
ten between two bounds. -/
structure Style where
  leastPlain : Int
  greatestPlain : Int

/-- Float constants are written plainly from `10 ^ (-4)` to below `10 ^ 16`. -/
def constantStyle : Style := ⟨-4, 15⟩

/-- Digits with a point `before` digits from the left, and at least one digit on each side. -/
def plainText (ds : List Char) (before : Int) : List Char :=
  if before ≤ 0 then
    '0' :: '.' :: List.replicate (-before).toNat '0' ++ ds
  else
    let n := before.toNat
    if ds.length ≤ n then
      ds ++ List.replicate (n - ds.length) '0' ++ ['.', '0']
    else
      ds.take n ++ '.' :: ds.drop n

/-- Digits with a point behind the first, if more follow, and the power of ten of the first. -/
def exponentText (ds : List Char) (power : Int) : List Char :=
  ds.take 1 ++ (if ds.length ≤ 1 then [] else '.' :: ds.drop 1) ++ 'e' :: (toString power).toList

def text (style : Style) (d : Decimal) : String :=
  let ds := Nat.toDigits 10 d.digits
  let power := d.exponent + ds.length - 1
  let ds := (ds.reverse.dropWhile (· = '0')).reverse
  String.ofList <|
    if style.leastPlain ≤ power && power ≤ style.greatestPlain then plainText ds (power + 1)
    else exponentText ds power

end Decimal

/-- The text of a float constant: the fewest digits that read back. -/
def Binary.text (x : Binary64) : String :=
  if x.isNaN then "NaN"
  else
    (if x.isNegative then "-" else "") ++
      if x.isInfinite then "inf"
      else if x.isZero then "0.0"
      else (Decimal.shortest x).text Decimal.constantStyle

end TinyC
