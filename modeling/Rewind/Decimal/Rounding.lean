/-
Rounding a quotient to the nearest whole number, and counting decimal digits.

* `roundQuot num den` — the whole number nearest to `num / den`, a tie going to the even one;
* `two_mul_dist_roundQuot` — the result lies within half a unit of the quotient;
* `tenTo`, `twoTo` — the powers of ten and of two;
* `digitCount n` — how many decimal digits `n` is written with, none for zero;
* `tenTo_pred_digitCount_le`, `lt_tenTo_digitCount` — `10 ^ (d - 1) ≤ n < 10 ^ d` for that count.
-/
namespace Rewind.Decimal

/-- The whole number nearest to `num / den`; halfway between two, the even one. -/
def roundQuot (num den : Nat) : Nat :=
  let low := num / den
  let rest := 2 * (num % den)
  if rest < den then low
  else if den < rest then low + 1
  else if low % 2 = 0 then low else low + 1

/-- The rounded quotient misses the quotient by at most half a unit, on either side. -/
theorem two_mul_dist_roundQuot (num den : Nat) (h : 0 < den) :
    2 * (roundQuot num den * den) ≤ 2 * num + den ∧ 2 * num ≤ 2 * (roundQuot num den * den) + den := by
  have hd := Nat.div_add_mod num den
  have hm := Nat.mod_lt num h
  rw [Nat.mul_comm] at hd
  have hs : (num / den + 1) * den = num / den * den + den := Nat.succ_mul ..
  simp only [roundQuot]
  split
  · omega
  · split
    · omega
    · split <;> omega

/-- An exact quotient is left as it is. -/
theorem roundQuot_mul (n den : Nat) (h : 0 < den) : roundQuot (n * den) den = n := by
  simp [roundQuot, Nat.mul_div_cancel n h, h]

/-- The power `10 ^ n`. -/
def tenTo (n : Nat) : Nat := Nat.pow 10 n

@[simp] theorem tenTo_zero : tenTo 0 = 1 := rfl

theorem tenTo_succ (n : Nat) : tenTo (n + 1) = tenTo n * 10 := rfl

/-- The power `2 ^ n`. -/
def twoTo (n : Nat) : Nat := Nat.pow 2 n

@[simp] theorem twoTo_zero : twoTo 0 = 1 := rfl

/-- The number of decimal digits of `n`, leading zeros apart; zero has none. -/
def digitCount (n : Nat) : Nat :=
  if n = 0 then 0 else digitCount (n / 10) + 1

theorem lt_tenTo_digitCount (n : Nat) : n < tenTo (digitCount n) := by
  fun_induction digitCount n with
  | case1 => simp
  | case2 n h ih =>
    have := Nat.div_add_mod n 10
    have := Nat.mod_lt n (show 10 > 0 by decide)
    rw [tenTo_succ]
    omega

theorem tenTo_pred_digitCount_le {n : Nat} (h : n ≠ 0) : tenTo (digitCount n - 1) ≤ n := by
  fun_induction digitCount n with
  | case1 => contradiction
  | case2 n _ ih =>
    by_cases h0 : n / 10 = 0
    · simp [h0, digitCount]; omega
    · have hp : digitCount (n / 10) = digitCount (n / 10) - 1 + 1 := by
        rw [digitCount]; simp [h0]
      have := ih h0
      rw [Nat.add_sub_cancel, hp, tenTo_succ]
      have := Nat.div_mul_le_self n 10
      omega

end Rewind.Decimal
