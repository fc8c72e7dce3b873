import Retrace.Word

/-!
# Binary64 values

Arithmetic on words goes through the 64-bit binary floating-point format: the exact result is
rounded to the nearest value of the format and then brought back to a word.

* `Binary64` : what a 64-bit pattern encodes; the two zeros are one value;
* `Binary64.ofBits` : the fields of a pattern, normal and subnormal;
* `Binary64.nearest` : a rational rounded to the grid of the format, a tie to the even multiple;
* `Binary64.rounded` : the same with overflow to an infinity;
* `Binary64.truncate` : the word of a value, toward zero and then modulo 2^32.
-/

namespace Retrace

/-- The value of a 64-bit floating-point pattern. -/
inductive Binary64 where
  | nan
  | infinite (negative : Bool)
  | finite (value : Rat)
  deriving DecidableEq, Repr

namespace Binary64

/-- The power of two with exponent `e`. -/
def twoPow (e : Int) : Rat :=
  Rat.zpow 2 e

/-- Decodes one sign bit, eleven exponent bits and 52 fraction bits. -/
def ofBits (bits : UInt64) : Binary64 :=
  let negative := 9223372036854775808 ≤ bits.toNat
  let exponent := bits.toNat / 4503599627370496 % 2048
  let fraction := bits.toNat % 4503599627370496
  let magnitude : Rat :=
    if exponent = 0 then fraction * twoPow (-1074)
    else (4503599627370496 + fraction : Nat) * twoPow (exponent - 1075)
  if exponent = 2047 then
    if fraction = 0 then .infinite negative else .nan
  else .finite (if negative then -magnitude else magnitude)

/-! ## Rounding -/

/-- The integer nearest to `q`; of two equally near, the even one. -/
def roundEven (q : Rat) : Int :=
  let below := q.floor
  let part := q - below
  if part < 1 / 2 then below
  else if 1 / 2 < part then below + 1
  else if below % 2 = 0 then below
  else below + 1

/-- The largest `e` with `2 ^ e ≤ q`, for a positive `q`. -/
def exponentOf (q : Rat) : Int :=
  let e : Int := (q.num.natAbs.log2 : Int) - (q.den.log2 : Int)
  if twoPow e ≤ q then e else e - 1

/-- The exponent of the last place of the format at the magnitude of `q`: 52 places below the
leading one, and never below the subnormal spacing. -/
def lastPlace (q : Rat) : Int :=
  max (exponentOf q.abs - 52) (-1074)

/-- The multiple of the last place nearest to `q`, a tie to the even multiple. -/
def nearest (q : Rat) : Rat :=
  if q = 0 then 0 else roundEven (q / twoPow (lastPlace q)) * twoPow (lastPlace q)

/-- The result of an operation whose exact value is `q`. -/
def rounded (q : Rat) : Binary64 :=
  if (nearest q).abs < twoPow 1024 then .finite (nearest q) else .infinite (q < 0)

/-! ## Operations on exact operands -/

/-- The integer part of `q`, toward zero. -/
def integerPart (q : Rat) : Int :=
  if q < 0 then -(-q).floor else q.floor

def sum (x y : Rat) : Binary64 := rounded (x + y)

def difference (x y : Rat) : Binary64 := rounded (x - y)

def product (x y : Rat) : Binary64 := rounded (x * y)

/-- A quotient by zero is an infinity, or no number at all for zero by zero. -/
def quotient (x y : Rat) : Binary64 :=
  if y = 0 then if x = 0 then .nan else .infinite (x < 0) else rounded (x / y)

/-- What is left of `x` after taking away whole multiples of `y` toward zero. It has the sign of
`x` and is always a value of the format. -/
def excess (x y : Rat) : Rat :=
  x - integerPart (x / y) * y

def remainder (x y : Rat) : Binary64 :=
  if y = 0 then .nan else .finite (excess x y)

/-! ## Back to words -/

/-- The word nearest to the integer part of `q`. -/
def clamp (q : Rat) : Word :=
  Int32.ofIntClamp (integerPart q)

/-- Drops the fraction and reduces modulo 2^32 into the signed range, each step in the format.
What is not finite gives zero. -/
def truncate : Binary64 → Word
  | .nan => 0
  | .infinite _ => 0
  | .finite q =>
    let left := excess (integerPart q) 4294967296
    let residue := if left < 0 then nearest (left + 4294967296) else left
    if 2147483648 ≤ residue then clamp (nearest (residue - 4294967296)) else clamp residue

end Binary64

end Retrace
