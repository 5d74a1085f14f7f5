/-!
# Binary floating-point numbers

The interchange formats `binary64` and `binary32` as bit patterns, with the conversions that a
compiler for two numeric types needs: rounding a quotient of natural numbers, widening, narrowing,
and passing to and from integers. All of it is exact arithmetic on natural numbers.

`Format.round` is the one place where a number is rounded, to the nearest pattern and to the even
one of two equally near.
-/

namespace TinyC

/-! ## Formats -/

/-- A binary interchange format. A pattern is a sign bit, an exponent field and a fraction field,
from the highest bit down. -/
structure Format where
  exponentBits : Nat
  fractionBits : Nat
deriving DecidableEq, Repr

namespace Format

def binary64 : Format := ⟨11, 52⟩

def binary32 : Format := ⟨8, 23⟩

def width (f : Format) : Nat := 1 + f.exponentBits + f.fractionBits

/-- The place value of the sign bit. -/
def signUnit (f : Format) : Nat := Nat.pow 2 (f.exponentBits + f.fractionBits)

/-- The place value of the lowest exponent bit. -/
def exponentUnit (f : Format) : Nat := Nat.pow 2 f.fractionBits

/-- The place value of the highest fraction bit, which is set in patterns that are quietly not a
number. -/
def quietUnit (f : Format) : Nat := Nat.pow 2 (f.fractionBits - 1)

/-- The exponent field of infinities and of patterns that are not a number. -/
def topExponent (f : Format) : Nat := Nat.pow 2 f.exponentBits - 1

/-- The exponent field of the number one. -/
def bias (f : Format) : Nat := Nat.pow 2 (f.exponentBits - 1) - 1

/-- The least positive number of the format is `2 ^ (-scale)`. -/
def scale (f : Format) : Nat := f.bias - 1 + f.fractionBits

/-- The pattern of positive infinity. -/
def infinity (f : Format) : Nat := f.topExponent * f.exponentUnit

end Format

/-! ## Rounding -/

/-- The natural number nearest to `n / d`, the even one of two equally near. -/
def roundDiv (n d : Nat) : Nat :=
  let q := n / d
  let r := n % d
  if d < 2 * r || (2 * r = d && q % 2 = 1) then q + 1 else q

/-- The pattern nearest to `num / den`, with the sign bit clear.

Measured in units of the least positive number the quotient is `scaled / den`. It has
`fractionBits + 1` binary digits above the place `2 ^ shift`, or fewer when `shift` is zero. The
rounded digits run over into the exponent field by plain addition, because patterns are ordered as
the numbers they stand for. -/
def Format.round (f : Format) (num den : Nat) : Nat :=
  let scaled := num * Nat.pow 2 f.scale
  let shift := (scaled / den).log2 - f.fractionBits
  min (shift * f.exponentUnit + roundDiv scaled (den * Nat.pow 2 shift)) f.infinity

/-! ## Patterns -/

/-- A number in a format, as its bits. -/
structure Binary (f : Format) where
  bits : BitVec f.width
deriving DecidableEq, Repr

abbrev Binary64 := Binary .binary64

abbrev Binary32 := Binary .binary32

namespace Binary

variable {f g : Format}

/-- The number with the given sign and the given pattern below the sign bit. -/
def ofMagnitude (negative : Bool) (pattern : Nat) : Binary f :=
  ⟨BitVec.ofNat _ ((if negative then f.signUnit else 0) + pattern)⟩

def isNegative (x : Binary f) : Bool := f.signUnit ≤ x.bits.toNat

def exponent (x : Binary f) : Nat := x.bits.toNat % f.signUnit / f.exponentUnit

def fraction (x : Binary f) : Nat := x.bits.toNat % f.exponentUnit

/-- The number is `significand * 2 ^ place` in units of half its least positive number, its sign
apart. -/
def significand (x : Binary f) : Nat :=
  if x.exponent = 0 then x.fraction else f.exponentUnit + x.fraction

@[inherit_doc significand]
def place (x : Binary f) : Nat := max x.exponent 1

/-- Both zeros are zero, whatever their sign. -/
def isZero (x : Binary f) : Bool := x.exponent = 0 && x.fraction = 0

def isInfinite (x : Binary f) : Bool := x.exponent = f.topExponent && x.fraction = 0

def isNaN (x : Binary f) : Bool := x.exponent = f.topExponent && x.fraction ≠ 0

def zero : Binary f := .ofMagnitude false 0

def one : Binary f := .ofMagnitude false (f.bias * f.exponentUnit)

/-! ## Conversions -/

/-- A quiet pattern that is not a number, with the given payload. -/
def quietNaN (negative : Bool) (payload : Nat) : Binary f :=
  .ofMagnitude negative <|
    f.infinity + if payload < f.quietUnit then payload + f.quietUnit else payload

/-- The numerator of a finite number over `2 ^ (scale + 1)`, its sign apart. -/
def numerator (x : Binary f) : Nat := x.significand * Nat.pow 2 x.place

/-- The nearest number in a narrower format; one too large becomes an infinity. What is not a
number keeps the upper part of its payload. -/
def narrow (x : Binary f) : Binary g :=
  if x.isNaN then quietNaN x.isNegative (x.fraction / Nat.pow 2 (f.fractionBits - g.fractionBits))
  else
    .ofMagnitude x.isNegative <|
      if x.isInfinite then g.infinity else g.round x.numerator (Nat.pow 2 (f.scale + 1))

/-- The same number in a wider format. What is not a number keeps its payload. -/
def widen (x : Binary f) : Binary g :=
  let raise := Nat.pow 2 (g.fractionBits - f.fractionBits)
  if x.isNaN then quietNaN x.isNegative (x.fraction * raise)
  else
    .ofMagnitude x.isNegative <|
      if x.isInfinite then g.infinity
      else if x.exponent ≠ 0 then
        (x.exponent + (g.bias - f.bias)) * g.exponentUnit + x.fraction * raise
      else if x.fraction = 0 then 0
      else
        let k := x.fraction.log2
        (k + (g.bias - f.scale)) * g.exponentUnit +
          (x.fraction - Nat.pow 2 k) * Nat.pow 2 (g.fractionBits - k)

/-- The nearest number to an integer. -/
def ofInt (n : Int) : Binary f := .ofMagnitude (n < 0) (f.round n.natAbs 1)

/-- The integer part, toward zero, held to the range of 32 bits. What is not a number gives zero. -/
def toInt32 (x : Binary f) : Int32 :=
  if x.isNaN then 0
  else
    let n := x.numerator / Nat.pow 2 (f.scale + 1)
    if x.isNegative then Int32.ofInt (-(min n 0x80000000 : Nat))
    else Int32.ofInt (min n 0x7fffffff : Nat)

end Binary

end TinyC
