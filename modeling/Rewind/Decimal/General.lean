/-
The text of a float.

A float is written with six significant digits, rounded to nearest on its exact value with ties
to even.  Trailing zeros of the fraction are dropped, and the point with them if nothing is left.
The decimal exponent of the rounded value decides the form: positional from 10⁻⁴ up to, but not
including, 10⁶, and otherwise a mantissa and an exponent with a sign and at least two digits.

* `decimalExponent` — the exponent of the leading digit of a positive fraction;
* `Scaled` — six digits and the exponent of the first of them;
* `Scaled.ofFraction` — the six-digit rounding of a positive fraction;
* `floatText` — the text of any float.
-/
import Rewind.Decimal.Rounding
import Rewind.Decimal.Binary

namespace Rewind.Decimal

/-- The number of significant digits kept. -/
def significantDigits : Nat := 6

/-- Positional notation is used for the exponents from here on … -/
def positionalFrom : Int := -4

/-- … and below this one. -/
def positionalBelow : Int := 6

/-- The `e` with `10 ^ e ≤ num / den < 10 ^ (e + 1)`, for `num` and `den` positive. -/
def decimalExponent (num den : Nat) : Int :=
  if den ≤ num then digitCount (num / den) - 1
  else -(digitCount ((den - 1) / num) : Int)

/-- A positive number to `significantDigits` digits: `digits`, of which the first has weight
`10 ^ exponent`. -/
structure Scaled where
  digits : Nat
  exponent : Int
  deriving DecidableEq

namespace Scaled

/-- Rounds `num / den` to the digits kept.  A carry into a new leading digit moves the exponent. -/
def ofFraction (num den : Nat) : Scaled :=
  let e := decimalExponent num den
  let shift := (significantDigits : Int) - 1 - e
  let digits := roundQuot (num * tenTo shift.toNat) (den * tenTo (-shift).toNat)
  if digits = tenTo significantDigits then ⟨tenTo (significantDigits - 1), e + 1⟩ else ⟨digits, e⟩

end Scaled

/-- The digits of a fraction without its trailing zeros. -/
def trimZeros (digits : List Char) : List Char :=
  (digits.reverse.dropWhile (· == '0')).reverse

/-- A whole part and a fraction, the point only where a digit follows it. -/
def pointed (whole fraction : List Char) : List Char :=
  match trimZeros fraction with
  | [] => whole
  | digits => whole ++ '.' :: digits

/-- The exponent mark, a sign and at least two digits. -/
def exponentMark (e : Int) : List Char :=
  let digits := Nat.toDigits 10 e.natAbs
  'e' :: (if e < 0 then '-' else '+') :: (if digits.length < 2 then '0' :: digits else digits)

namespace Scaled

/-- The text of a scaled number: positional where its exponent allows, else with a mark. -/
def chars (s : Scaled) : List Char :=
  let digits := Nat.toDigits 10 s.digits
  if s.exponent < positionalFrom ∨ positionalBelow ≤ s.exponent then
    pointed (digits.take 1) (digits.drop 1) ++ exponentMark s.exponent
  else if 0 ≤ s.exponent then
    pointed (digits.take (s.exponent.toNat + 1)) (digits.drop (s.exponent.toNat + 1))
  else
    pointed ['0'] (List.replicate ((-s.exponent).toNat - 1) '0' ++ digits)

end Scaled

/-- The text of a reading; a zero keeps its sign. -/
def Reading.text : Reading → String
  | .nan => "nan"
  | .infinite negative => if negative then "-inf" else "inf"
  | .finite negative m q =>
    let body :=
      if m = 0 then ['0'] else
        let (num, den) := Reading.fraction m q
        (Scaled.ofFraction num den).chars
    String.ofList (if negative then '-' :: body else body)

/-- The text of a float, with six significant digits. -/
def floatText (x : Float) : String := (Reading.ofFloat x).text

end Rewind.Decimal
