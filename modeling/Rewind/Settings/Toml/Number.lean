/-
Numbers of TOML.

A number is a word: a whole number of 64 bits in base ten, or after `0x`, `0o` and `0b` in base
sixteen, eight and two, or a number with a point or an exponent.  Single underscores may stand
between two digits.

* `Toml.integer?`, `Toml.float?` — the two kinds of number.
-/
import Rewind.Settings.Toml.Quoted
import Rewind.Text.Numeral

namespace Rewind.Toml

/-- The digits of a number, without the underscores that stand between two of them. -/
def groupedDigits? (isDigit : Char → Bool) (cs : List Char) : Option (List Char) :=
  let groups := cs.splitOn '_'
  if groups.all fun g => !g.isEmpty && g.all isDigit then some groups.flatten else none

/-- The sign in front of a number, and the number. -/
def signed : List Char → Bool × List Char
  | '-' :: rest => (true, rest)
  | '+' :: rest => (false, rest)
  | cs => (false, cs)

/-- Digits of which the first is a zero only if it is the last, too. -/
def leading? (cs : List Char) : Option (List Char) := do
  let ds ← groupedDigits? Char.isDigit cs
  if ds.length = 1 ∨ ds.head? ≠ some '0' then some ds else none

/-- Digits in a base up to sixteen. -/
def based? (base : Nat) (cs : List Char) : Option Nat := do
  let ds ← groupedDigits? (fun c => (hexDigit? c).any (· < base)) cs
  some (ds.foldl (fun n c => base * n + (hexDigit? c).getD 0) 0)

/-- A whole number, however large. -/
def unbounded? : List Char → Option Int
  | '0' :: 'x' :: ds => (based? 16 ds).map Int.ofNat
  | '0' :: 'o' :: ds => (based? 8 ds).map Int.ofNat
  | '0' :: 'b' :: ds => (based? 2 ds).map Int.ofNat
  | cs => do
    let (negative, body) := signed cs
    let n : Int := natOfDigits (← leading? body)
    some (if negative then -n else n)

/-- A whole number of 64 bits. -/
def integer? (cs : List Char) : Option Int := do
  let n ← unbounded? cs
  if minInt ≤ n ∧ n ≤ maxInt then some n else none

/-- The exponent behind its mark; a sign may stand in front of it. -/
def exponent? : List Char → Option Int
  | [] => some 0
  | _ :: cs => do
    let (negative, body) := signed cs
    let n : Int := natOfDigits (← groupedDigits? Char.isDigit body)
    some (if negative then -n else n)

/-- A number with a point or an exponent; one that is too large is none. -/
def finite? (cs : List Char) : Option Float := do
  let (negative, body) := signed cs
  let isMark (c : Char) := c == 'e' || c == 'E'
  let mantissa := body.takeWhile (!isMark ·)
  let exponent := body.dropWhile (!isMark ·)
  guard (!exponent.isEmpty || mantissa.contains '.')
  let whole ← leading? (mantissa.takeWhile (· != '.'))
  let fraction ←
    match mantissa.dropWhile (· != '.') with
    | [] => some []
    | _ :: ds => groupedDigits? Char.isDigit ds
  let e ← exponent? exponent
  let x := Text.scaled (natOfDigits (whole ++ fraction)) (e - fraction.length)
  if negative then some (-x) else if x == 1 / 0 then none else some x

/-- A number with a point or an exponent, or one of the words for what is no finite number. -/
def float? (cs : List Char) : Option Float :=
  match String.ofList cs with
  | "inf" | "+inf" => some (1 / 0)
  | "-inf" => some (-1 / 0)
  | "nan" | "+nan" | "-nan" => some (0 / 0)
  | _ => finite? cs

end Rewind.Toml
