/-!
# Decimal numbers

Numbers are read digit by digit.  A decimal number is `mantissa * 10 ^ exponent`; it is
within the range of a double when it rounds to a finite one.

A number can also be read in two roundings, which is less exact: the digits that fit in
64 bits are rounded to a double, and the product with the power of ten is rounded again.
-/

namespace GoAtlas

/-- Whether a character is a decimal digit. -/
def isDigit (c : Char) : Bool :=
  '0' ≤ c && c ≤ '9'

/-- The number written by decimal digits. -/
def digitsValue (digits : List Char) : Nat :=
  digits.foldl (fun n c => n * 10 + (c.toNat - '0'.toNat)) 0

/-- The first natural number that is no signed number of 64 bits, `2 ^ 63`. -/
def signedLimit : Nat := 0x8000000000000000

/-- The first natural number that has more than 64 bits, `2 ^ 64`. -/
def wordLimit : Nat := 0x10000000000000000

/-- Half way between the greatest double, `2 ^ 1024 - 2 ^ 971`, and `2 ^ 1024`. -/
def doubleLimit : Nat := Nat.pow 2 1024 - Nat.pow 2 970

/-- Whether `mantissa * 10 ^ exponent` rounds to a finite double.  The number of
digits settles all but the values near the greatest double. -/
def isFiniteDecimal (mantissa : Nat) (exponent : Int) : Bool :=
  if mantissa = 0 then true
  else
    let magnitude := (Nat.toDigits 10 mantissa).length + exponent
    if magnitude < 309 then true
    else if 310 < magnitude then false
    else if 0 ≤ exponent then mantissa * Nat.pow 10 exponent.toNat < doubleLimit
    else mantissa < doubleLimit * Nat.pow 10 (-exponent).toNat

/-! ## Reading in two roundings -/

/-- `n` rounded to 53 binary digits, a half to the even neighbour. -/
def roundToDouble (n : Nat) : Nat :=
  let shift := n.log2 - 52
  let unit := Nat.pow 2 shift
  let quotient := n / unit
  let twice := 2 * (n % unit)
  let up := unit < twice || (twice == unit && quotient % 2 == 1)
  (if up then quotient + 1 else quotient) * unit

/-- The value of the digits `digits` after those of `value`, as many of them as fit in 64
bits, and the digits that do not. -/
def leadingDigits (value : Nat) : List Char → Nat × List Char
  | [] => (value, [])
  | c :: rest =>
      let next := value * 10 + (c.toNat - '0'.toNat)
      if next < wordLimit then leadingDigits next rest else (value, c :: rest)

/-- Whether the product of a number of 64 bits and a power of ten is finite, when both are
rounded before and the product after.  Powers above the greatest one that is a double count
as infinite. -/
def isFiniteProduct (significand : Nat) (exponent : Int) : Bool :=
  if 308 < exponent then significand == 0
  else if 0 ≤ exponent then
    roundToDouble significand * roundToDouble (Nat.pow 10 exponent.toNat) < doubleLimit
  else true

/-- Whether a number with the digits `whole` before and `fraction` after its point is
finite in two roundings.  Digits before the point that do not fit raise the exponent, and
those after it do not count. -/
def isFiniteRounded (whole fraction : List Char) (exponent : Int) : Bool :=
  let (value, excess) := leadingDigits 0 whole
  let (significand, ignored) := leadingDigits value fraction
  isFiniteProduct significand (exponent + excess.length - (fraction.length - ignored.length))

end GoAtlas
