/-
The shortest text of a float.

Of all decimals that are nearer to a float than to its neighbours, the text has one with the fewest
digits, and of those the nearest.  It is written out in full, without an exponent.

* `Gap` — the decimals that read back as a given float;
* `Gap.shortest?` — the shortest of them;
* `shortestText` — the text of any float.
-/
import Rewind.Decimal.General

namespace Rewind.Decimal

/-- The decimals nearer to `m * 2 ^ q` than to the floats beside it.  Below a power of two the
floats are twice as dense.  The ends belong to it if `m` is even. -/
structure Gap where
  significand : Nat
  exponent : Int

namespace Gap

/-- Compares `a * 10 ^ i` with `b * 2 ^ j`. -/
def compareScaled (a : Nat) (i : Int) (b : Nat) (j : Int) : Ordering :=
  compare (a * tenTo i.toNat * twoTo (-j).toNat) (b * twoTo j.toNat * tenTo (-i).toNat)

/-- The decimal `digits * 10 ^ place` reads back as the float in the middle. -/
def contains (g : Gap) (digits : Nat) (place : Int) : Bool :=
  let m := g.significand
  let narrow := m == Reading.hiddenBit && g.exponent > -1074
  let low := compareScaled digits place (4 * m - if narrow then 1 else 2) (g.exponent - 2)
  let high := compareScaled digits place (4 * m + 2) (g.exponent - 2)
  if m % 2 = 0 then low != .lt && high != .gt else low == .gt && high == .lt

/-- The decimal of so many digits nearest to the middle that reads back, if there is one, and the
place of its last digit. -/
def ofLength? (g : Gap) (length : Nat) : Option (Nat × Int) :=
  let (num, den) := Reading.fraction g.significand g.exponent
  let place := decimalExponent num den + 1 - length
  let (num, den) := (num * tenTo (-place).toNat, den * tenTo place.toNat)
  let low := num / den
  let both := if 2 * (num % den) < den then [low, low + 1] else [low + 1, low]
  (both.find? (g.contains · place)).map fun digits => (digits, place)

/-- The shortest decimal that reads back; seventeen digits always do. -/
def shortest? (g : Gap) : Option (Nat × Int) :=
  (List.range 17).findSome? fun n => g.ofLength? (n + 1)

end Gap

/-- The text of `digits * 10 ^ place`, written out. -/
def writtenOut (digits : Nat) (place : Int) : List Char :=
  let cs := Nat.toDigits 10 digits
  if 0 ≤ place then cs ++ List.replicate place.toNat '0'
  else
    let behind := (-place).toNat
    let cs := List.replicate (behind + 1 - cs.length) '0' ++ cs
    pointed (cs.take (cs.length - behind)) (cs.drop (cs.length - behind))

/-- The shortest text that reads back as a float. -/
def shortestText (x : Float) : String :=
  match Reading.ofFloat x with
  | .nan => "NaN"
  | .infinite negative => if negative then "-inf" else "inf"
  | .finite negative m q =>
    let body :=
      if m = 0 then ['0'] else
        match Gap.shortest? ⟨m, q⟩ with
        | some (digits, place) => writtenOut digits place
        | none => []
    String.ofList (if negative then '-' :: body else body)

end Rewind.Decimal
