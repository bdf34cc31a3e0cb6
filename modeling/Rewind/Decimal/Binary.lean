/-
Binary64 numbers taken apart.

A finite 64-bit float is a sign and a whole number times a power of two; `Reading.ofBits` reads
both off the bit pattern, so that everything printed about a float is exact integer arithmetic.

* `Reading` — not a number, an infinity, or sign, significand and exponent;
* `Reading.ofBits`, `Reading.ofFloat` — the reading of a bit pattern, of a float;
* `Reading.fraction` — the magnitude of a finite reading as a fraction of whole numbers.
-/
import Rewind.Decimal.Rounding

namespace Rewind.Decimal

/-- What a binary64 bit pattern stands for: `finite neg m q` is `± m * 2 ^ q`. -/
inductive Reading where
  | nan
  | infinite (negative : Bool)
  | finite (negative : Bool) (significand : Nat) (exponent : Int)
  deriving DecidableEq

namespace Reading

/-- The leading bit of a significand, `2 ^ 52`, which a bit pattern leaves out. -/
def hiddenBit : Nat := 4503599627370496

/-- The sign is the top bit, the next eleven are the biased exponent and the low 52 the fraction.
An exponent field of zero holds subnormal numbers, all ones hold the infinities and NaN. -/
def ofBits (bits : UInt64) : Reading :=
  let n := bits.toNat
  let negative := n / (2048 * hiddenBit) == 1
  let field : Nat := n / hiddenBit % 2048
  let fraction : Nat := n % hiddenBit
  if field = 2047 then
    if fraction = 0 then infinite negative else nan
  else if field = 0 then finite negative fraction (-1074)
  else finite negative (fraction + hiddenBit) ((field : Int) - 1075)

def ofFloat (x : Float) : Reading := ofBits x.toBits

/-- The magnitude `m * 2 ^ q` as numerator and denominator. -/
def fraction (significand : Nat) (exponent : Int) : Nat × Nat :=
  (significand * twoTo exponent.toNat, twoTo (-exponent).toNat)

end Reading

end Rewind.Decimal
