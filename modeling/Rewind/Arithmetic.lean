/-
Arithmetic and comparison of values.

Integers are exact: a sum, difference or product that does not fit is an overflow, never a wrapped
number.  As soon as one operand is a float both are taken as floats; `/` and `^` always are.

* `Value.checked` — an integer that fits;
* `Value.numeric` — `+`, `-` and `*` of numbers;
* `Value.divide`, `Value.remainder`, `Value.power`, `Value.negate` — the other operators;
* `Value.compare` — `<`, `>`, `<=` and `>=`;
* `resolveIndex`, `sliceChars` — positions counted from either end of a sequence.
-/
import Rewind.Failure.Complaint
import Rewind.Token.Scan
import Rewind.Value

namespace Rewind

namespace Value

/-- The integer `n`, if a program can hold it. -/
def checked (n : Int) : Option Value :=
  if minInt ≤ n ∧ n ≤ maxInt then some (.int n) else none

/-- The complaint about operands an operator does not take. -/
def unsupported (op : Token) (a b : Value) : Complaint := .unsupported op.text a.kind b.kind

/-- `+`, `-` or `*` on two numbers: exact on integers, in floats as soon as one operand is one. -/
def numeric (op : Token) (a b : Value) : Except Complaint Value :=
  match a, b with
  | .int x, .int y =>
    let exact :=
      match op.kind with
      | .plus => x + y
      | .minus => x - y
      | _ => x * y
    match checked exact with
    | some v => .ok v
    | none => .error (.overflow op.text)
  | _, _ =>
    match a.number?, b.number? with
    | some x, some y =>
      .ok <| .float <|
        match op.kind with
        | .plus => x + y
        | .minus => x - y
        | _ => x * y
    | _, _ => .error (unsupported op a b)

/-- Division, always of floats. -/
def divide (op : Token) (a b : Value) : Except Complaint Value :=
  match a.number?, b.number? with
  | some x, some y => if y == 0 then .error .divisionByZero else .ok (.float (x / y))
  | _, _ => .error (unsupported op a b)

/-- The remainder of integers, with the sign of the dividend. -/
def remainder (op : Token) (a b : Value) : Except Complaint Value :=
  match a, b with
  | .int x, .int y => if y = 0 then .error .moduloByZero else .ok (.int (x.tmod y))
  | _, _ => .error (unsupported op a b)

/-- Powers, always of floats. -/
def power (op : Token) (a b : Value) : Except Complaint Value :=
  match a.number?, b.number? with
  | some x, some y => .ok (.float (x.pow y))
  | _, _ => .error (unsupported op a b)

/-- The negative of a number. -/
def negate : Value → Except Complaint Value
  | .int n =>
    match checked (-n) with
    | some v => .ok v
    | none => .error .negationOverflow
  | .float x => .ok (.float (-x))
  | v => .error (.notNegatable v.kind)

/-- An order relation between two numbers; nothing holds of a NaN. -/
def compare (op : Token) (a b : Value) : Except Complaint Bool :=
  match a, b with
  | .int x, .int y =>
    .ok <|
      match op.kind with
      | .lt => decide (x < y)
      | .gt => decide (y < x)
      | .lte => decide (x ≤ y)
      | _ => decide (y ≤ x)
  | _, _ =>
    match a.number?, b.number? with
    | some x, some y =>
      .ok <|
        match op.kind with
        | .lt => decide (x < y)
        | .gt => decide (y < x)
        | .lte => decide (x ≤ y)
        | _ => decide (y ≤ x)
    | _, _ => .error (.incomparable a.kind b.kind op.text)

end Value

/-- The place in a sequence of `length` items that `index` names; a negative index counts from the
end. -/
def resolveIndex (index : Int) (length : Nat) : Option Nat :=
  let i := if index < 0 then index + length else index
  if 0 ≤ i ∧ i < length then some i.toNat else none

/-- A bound of a slice of `length` items: negative bounds count from the end, and what lies outside
is moved to the nearer end. -/
def sliceBound (index : Int) (length : Nat) : Nat :=
  let i := if index < 0 then index + length else index
  min i.toNat length

/-- The items from one bound up to, but not including, another. -/
def sliceChars (cs : List Char) (first last : Int) : List Char :=
  let start := sliceBound first cs.length
  let stop := sliceBound last cs.length
  (cs.take stop).drop start

/-- Texts longer than this many bytes cannot be allocated.  Which request of memory fails depends on
the machine at hand; this bound stands for the failed request of `s * n`, which is reported as an
error of the program, and no other operation consults it. -/
def maxTextBytes : Nat := 4294967296

/-- The text `s` written `n` times over. -/
def repeatText (s : String) (n : Nat) : String :=
  if s.isEmpty then s else Nat.repeat (· ++ s) n ""

end Rewind
