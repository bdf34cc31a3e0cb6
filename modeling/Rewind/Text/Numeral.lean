/-
Numbers written as plain text.

These are the rules for a number given on its own, in a variable of the environment or an argument
of the command line: a sign may stand in front, and every character belongs to the number.

* `natural64?`, `integer64?` — whole numbers of 64 bits, without and with a sign that counts;
* `decimal?` — numbers with a point or an exponent, and the words for what is no finite number.
-/
import Rewind.Decimal.Rounding
import Rewind.Token.Scan

namespace Rewind.Text

/-- The value of a text of digits, at least one. -/
def digits? (cs : List Char) : Option Nat :=
  if !cs.isEmpty && cs.all Char.isDigit then some (natOfDigits cs) else none

/-- A whole number below `2 ^ 64`; a plus sign may stand in front. -/
def natural64? (cs : List Char) : Option Nat := do
  let n ← digits? (if cs.head? = some '+' then cs.tail else cs)
  if n < 18446744073709551616 then some n else none

/-- A whole number of 64 bits with a sign; a sign may stand in front. -/
def integer64? (cs : List Char) : Option Int := do
  let n : Int ←
    match cs with
    | '-' :: rest => (digits? rest).map fun n => -(n : Int)
    | '+' :: rest => (digits? rest).map Int.ofNat
    | _ => (digits? cs).map Int.ofNat
  if minInt ≤ n ∧ n ≤ maxInt then some n else none

/-- The float `n * 10 ^ e`.  Far outside the range of floats the power is not computed. -/
def scaled (n : Nat) (e : Int) : Float :=
  let size := (Nat.toDigits 10 n).length
  if n = 0 ∨ e + size < -400 then 0
  else if 400 < e + size then 1 / 0
  else if 0 ≤ e then Float.ofScientific (n * Decimal.tenTo e.toNat) false 0
  else Float.ofScientific n true (-e).toNat

/-- The exponent behind its mark, zero if there is none. -/
def exponent? : List Char → Option Int
  | [] => some 0
  | c :: rest =>
    if c ≠ 'e' ∧ c ≠ 'E' then none
    else match rest with
      | '-' :: cs => (digits? cs).map fun n => -(n : Int)
      | '+' :: cs => (digits? cs).map Int.ofNat
      | cs => (digits? cs).map Int.ofNat

/-- Digits with a point among them, before or behind them, and an exponent; no sign. -/
def unsignedDecimal? (cs : List Char) : Option Float := do
  let whole := cs.takeWhile Char.isDigit
  let rest := cs.dropWhile Char.isDigit
  let (fraction, rest) :=
    match rest with
    | '.' :: behind => (behind.takeWhile Char.isDigit, behind.dropWhile Char.isDigit)
    | _ => ([], rest)
  let n ← digits? (whole ++ fraction)
  let e ← exponent? rest
  some (scaled n (e - fraction.length))

/-- A number with a point or an exponent, `inf`, `infinity` or `nan`, in any case. -/
def decimal? (cs : List Char) : Option Float :=
  let (negative, body) :=
    match cs with
    | '-' :: rest => (true, rest)
    | '+' :: rest => (false, rest)
    | _ => (false, cs)
  let magnitude :=
    match String.ofList (body.map Char.toLower) with
    | "inf" | "infinity" => some (1 / 0)
    | "nan" => some (0 / 0)
    | _ => unsignedDecimal? body
  if negative then magnitude.map (- ·) else magnitude

end Rewind.Text
