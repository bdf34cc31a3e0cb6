/-
Dates and times of TOML.

A moment is a date, a time of day, or both with an offset from universal time or without.  A setting
that is a moment is a text, in which the date and the time are written in one way only.

* `Toml.date?`, `Toml.clock?`, `Toml.offset?` — the three parts, each from the front of a text;
* `Toml.moment?` — a whole word that is a moment, as a text.
-/
import Rewind.Text.Numeral

namespace Rewind.Toml

/-- The number in the next `count` characters, which are digits, and the text behind it. -/
def digits? (count : Nat) (cs : List Char) : Option (Nat × List Char) :=
  let ds := cs.take count
  if ds.length = count ∧ ds.all Char.isDigit then some (natOfDigits ds, cs.drop count) else none

/-- The text behind a character. -/
def behind? (c : Char) : List Char → Option (List Char)
  | [] => none
  | d :: rest => if d = c then some rest else none

/-- A number in at least `width` digits. -/
def padded (width n : Nat) : List Char :=
  let ds := Nat.toDigits 10 n
  List.replicate (width - ds.length) '0' ++ ds

/-- The number of days of a month. -/
def daysOf (year month : Nat) : Nat :=
  if month = 2 then
    if year % 4 = 0 ∧ (year % 100 ≠ 0 ∨ year % 400 = 0) then 29 else 28
  else if [4, 6, 9, 11].contains month then 30
  else 31

/-- A date `yyyy-mm-dd`, and the text behind it. -/
def date? (cs : List Char) : Option (List Char × List Char) := do
  let (year, rest) ← digits? 4 cs
  let (month, rest) ← digits? 2 (← behind? '-' rest)
  let (day, rest) ← digits? 2 (← behind? '-' rest)
  guard (1 ≤ month ∧ month ≤ 12 ∧ 1 ≤ day ∧ day ≤ daysOf year month)
  some (padded 4 year ++ '-' :: padded 2 month ++ '-' :: padded 2 day, rest)

/-- The digits behind the point of a second: nine count, and zeros at the end do not. -/
def fraction (ds : List Char) : List Char :=
  let significant := ((ds.take 9).reverse.dropWhile (· == '0')).reverse
  if significant.isEmpty then [] else '.' :: significant

/-- A time of day `hh:mm:ss`, with a part of a second or without, and the text behind it. -/
def clock? (cs : List Char) : Option (List Char × List Char) := do
  let (hour, rest) ← digits? 2 cs
  let (minute, rest) ← digits? 2 (← behind? ':' rest)
  let (second, rest) ← digits? 2 (← behind? ':' rest)
  guard (hour ≤ 23 ∧ minute ≤ 59 ∧ second ≤ 60)
  let whole := padded 2 hour ++ ':' :: padded 2 minute ++ ':' :: padded 2 second
  match rest with
  | '.' :: more =>
    let ds := more.takeWhile Char.isDigit
    if ds.isEmpty then none else some (whole ++ fraction ds, more.dropWhile Char.isDigit)
  | _ => some (whole, rest)

/-- An offset from universal time, `Z` or `+hh:mm`, that ends the text. -/
def offset? : List Char → Option (List Char)
  | [] => some []
  | ['Z'] | ['z'] => some ['Z']
  | sign :: cs => do
    guard (sign = '+' ∨ sign = '-')
    let (hours, rest) ← digits? 2 cs
    let (minutes, rest) ← digits? 2 (← behind? ':' rest)
    guard (rest.isEmpty ∧ hours ≤ 23 ∧ minutes ≤ 59)
    let sign := if hours = 0 ∧ minutes = 0 then '+' else sign
    some (sign :: padded 2 hours ++ ':' :: padded 2 minutes)

/-- A time of day with an offset or without, that is the whole text. -/
def clockWithOffset? (cs : List Char) : Option (List Char) := do
  let (clock, rest) ← clock? cs
  some (clock ++ (← offset? rest))

/-- A word that is a date, a time of day, or both. -/
def moment? (cs : List Char) : Option (List Char) :=
  match date? cs with
  | some (date, []) => some date
  | some (date, mark :: rest) =>
    if mark = 'T' ∨ mark = 't' ∨ mark = ' ' then
      (clockWithOffset? rest).map fun clock => date ++ 'T' :: clock
    else none
  | none =>
    match clock? cs with
    | some (clock, []) => some clock
    | _ => none

end Rewind.Toml
