/-
The digits of a float.

The text of a float is read as a number again: it is the exact value of the float, rounded to six
significant digits, a tie going to the even digit.  Rounding may carry into a new leading digit; the form
and the exponent of the text go by the rounded value.  Where the text has no exponent, the float may as
well be rounded a second time, to the decimals that are written: the number is the same.

* `Nearest`, `RoundsTo` — rounding a fraction to a whole number, and to significant digits;
* `Scaled.rounds_ofFraction` — the six digits and the exponent that a text is made from;
* `Numeral` — a number as it is written, and what it stands for;
* `ofFloat_of_unpack` — the sign, the significand and the exponent of a float;
* `text_of_float` — the text of a finite float that is not zero.
-/
import Rewind.Decimal.Shortest
import Mathlib

namespace Rewind.Decimal

/-! ### Rounding -/

/-- The whole number nearest to `r`, the even one if two are. -/
structure Nearest (r : ℚ) (n : ℕ) : Prop where
  close : |r - n| ≤ 1 / 2
  even : |r - n| = 1 / 2 → Even n

theorem Nearest.unique {r : ℚ} {m n : ℕ} (hm : Nearest r m) (hn : Nearest r n) : m = n := by
  by_contra hne
  wlog h : m < n generalizing m n
  · exact this hn hm (Ne.symm hne) (by omega)
  have far : (m : ℚ) + 1 ≤ n := by exact_mod_cast h
  have left := (abs_le.1 hm.close).2
  have right := (abs_le.1 hn.close).1
  -- both are half a unit off, so both are even and stand side by side
  have evenly : Even m := hm.even (by rw [abs_of_nonneg] <;> linarith)
  have evenly' : Even n := hn.even (by rw [abs_of_nonpos] <;> linarith)
  have next : (n : ℚ) = m + 1 := by linarith
  obtain rfl : n = m + 1 := by exact_mod_cast next
  exact absurd evenly (by simpa [Nat.even_add_one] using evenly')

theorem nearest_roundQuot (num den : ℕ) (h : 0 < den) :
    Nearest (num / den) (roundQuot num den) := by
  have positive : (0 : ℚ) < den := by exact_mod_cast h
  have split : (num : ℚ) = den * (num / den : ℕ) + (num % den : ℕ) := by
    exact_mod_cast (Nat.div_add_mod num den).symm
  have quotient : (num : ℚ) / den = (num / den : ℕ) + (num % den : ℕ) / den := by
    rw [split]
    field_simp
  -- the remainder is compared with half of the denominator, which is the fraction with a half
  have below : ((num % den : ℕ) : ℚ) / den < 1 / 2 ↔ 2 * (num % den) < den := by
    rw [div_lt_div_iff₀ positive (by norm_num), one_mul, mul_comm]
    exact_mod_cast Iff.rfl
  have above : 1 / 2 < ((num % den : ℕ) : ℚ) / den ↔ den < 2 * (num % den) := by
    rw [div_lt_div_iff₀ (by norm_num) positive, one_mul, mul_comm _ (2 : ℚ)]
    exact_mod_cast Iff.rfl
  have nonneg : (0 : ℚ) ≤ (num % den : ℕ) / den := by positivity
  have small : ((num % den : ℕ) : ℚ) / den < 1 := by
    rw [div_lt_one positive]
    exact_mod_cast Nat.mod_lt num h
  unfold roundQuot
  rw [quotient]
  generalize ((num % den : ℕ) : ℚ) / den = f at below above nonneg small
  generalize num / den = low
  dsimp only
  split_ifs with hlow hhigh heven
  · have off : (low : ℚ) + f - low = f := by ring
    rw [← below] at hlow
    exact ⟨by rw [off, abs_of_nonneg nonneg]; linarith, by rw [off, abs_of_nonneg nonneg]; intro; linarith⟩
  · have off : (low : ℚ) + f - (low + 1 : ℕ) = f - 1 := by push_cast; ring
    rw [← above] at hhigh
    have nonpos : f - 1 ≤ 0 := by linarith
    exact ⟨by rw [off, abs_of_nonpos nonpos]; linarith, by rw [off, abs_of_nonpos nonpos]; intro; linarith⟩
  all_goals
    -- between two numbers as near the even one is taken
    have half : f = 1 / 2 := le_antisymm (not_lt.1 (mt above.1 hhigh)) (not_lt.1 (mt below.1 hlow))
  · have off : (low : ℚ) + f - low = 1 / 2 := by rw [half]; ring
    exact ⟨by rw [off]; norm_num, fun _ => Nat.even_iff.2 heven⟩
  · have off : (low : ℚ) + f - (low + 1 : ℕ) = -(1 / 2) := by rw [half]; push_cast; ring
    exact ⟨by rw [off]; norm_num, fun _ => Nat.even_add_one.2 (by rwa [Nat.even_iff])⟩

/-- Rounding does not pass a whole number. -/
theorem Nearest.le_of_le {r : ℚ} {n k : ℕ} (h : Nearest r n) (hk : (k : ℚ) ≤ r) : k ≤ n := by
  by_contra hlt
  have far : (n : ℚ) + 1 ≤ k := by exact_mod_cast not_le.1 hlt
  have := (abs_le.1 h.close).2
  linarith

theorem Nearest.ge_of_ge {r : ℚ} {n k : ℕ} (h : Nearest r n) (hk : r ≤ k) : n ≤ k := by
  by_contra hlt
  have far : (k : ℚ) + 1 ≤ n := by exact_mod_cast not_le.1 hlt
  have := (abs_le.1 h.close).1
  linarith

/-- `v` is `r` rounded to so many significant digits, a tie going to the even digit. -/
def RoundsTo (digits : ℕ) (r v : ℚ) : Prop :=
  ∃ n : ℕ, Nearest (r * 10 ^ (digits - 1 - Int.log 10 r)) n ∧ v = n * 10 ^ (Int.log 10 r + 1 - digits)

theorem RoundsTo.unique {digits : ℕ} {r v w : ℚ} (hv : RoundsTo digits r v)
    (hw : RoundsTo digits r w) : v = w := by
  obtain ⟨m, hm, rfl⟩ := hv
  obtain ⟨n, hn, rfl⟩ := hw
  rw [hm.unique hn]

theorem tenTo_eq (n : ℕ) : tenTo n = 10 ^ n := rfl

theorem twoTo_eq (n : ℕ) : twoTo n = 2 ^ n := rfl

/-- The exponent of the leading digit. -/
theorem log_eq_of_bounds {r : ℚ} {e : ℤ} (low : 10 ^ e ≤ r) (high : r < 10 ^ (e + 1)) :
    Int.log 10 r = e := by
  have positive : 0 < r := (zpow_pos (by norm_num) e).trans_le low
  have lower := (Int.zpow_le_iff_le_log (b := 10) (by norm_num) positive).1 (by exact_mod_cast low)
  have upper := (Int.lt_zpow_iff_log_lt (b := 10) (by norm_num) positive).1 (by exact_mod_cast high)
  omega

theorem decimalExponent_eq_log {num den : ℕ} (hn : 0 < num) (hd : 0 < den) :
    decimalExponent num den = Int.log 10 ((num : ℚ) / den) := by
  have positive : (0 : ℚ) < den := by exact_mod_cast hd
  symm
  unfold decimalExponent
  split_ifs with hle
  · -- from one on, the digits of the whole part are counted
    have nonzero : num / den ≠ 0 := (Nat.div_pos hle hd).ne'
    have least := tenTo_pred_digitCount_le nonzero
    have below := lt_tenTo_digitCount (num / den)
    obtain ⟨d, hd'⟩ : ∃ d, digitCount (num / den) = d + 1 := by
      rw [digitCount, if_neg nonzero]
      exact ⟨_, rfl⟩
    rw [hd'] at least below ⊢
    rw [Nat.add_sub_cancel, tenTo_eq, Nat.le_div_iff_mul_le hd] at least
    rw [tenTo_eq, Nat.div_lt_iff_lt_mul hd] at below
    apply log_eq_of_bounds
    · rw [show ((d + 1 : ℕ) : ℤ) - 1 = d by omega, zpow_natCast, le_div_iff₀ positive]
      exact_mod_cast least
    · rw [show ((d + 1 : ℕ) : ℤ) - 1 + 1 = (d + 1 : ℕ) by omega, zpow_natCast, div_lt_iff₀ positive]
      exact_mod_cast below
  · -- below one, the digits of the reciprocal
    have nonzero : (den - 1) / num ≠ 0 := (Nat.div_pos (by omega) hn).ne'
    have least := tenTo_pred_digitCount_le nonzero
    have below := lt_tenTo_digitCount ((den - 1) / num)
    obtain ⟨d, hd'⟩ : ∃ d, digitCount ((den - 1) / num) = d + 1 := by
      rw [digitCount, if_neg nonzero]
      exact ⟨_, rfl⟩
    rw [hd'] at least below ⊢
    rw [Nat.add_sub_cancel, tenTo_eq, Nat.le_div_iff_mul_le hn] at least
    rw [tenTo_eq, Nat.div_lt_iff_lt_mul hn] at below
    have fewer : 10 ^ d * num < den := by omega
    have more : den ≤ 10 ^ (d + 1) * num := by omega
    apply log_eq_of_bounds
    · rw [zpow_neg, zpow_natCast, le_div_iff₀ positive, inv_mul_le_iff₀ (by positivity)]
      exact_mod_cast more
    · rw [show -((d + 1 : ℕ) : ℤ) + 1 = -(d : ℤ) by omega, zpow_neg, zpow_natCast,
        div_lt_iff₀ positive, lt_inv_mul_iff₀ (by positivity)]
      exact_mod_cast fewer

namespace Scaled

/-- The number with these digits. -/
def value (s : Scaled) : ℚ := s.digits * 10 ^ (s.exponent - 5)

/-- The place of the leading digit of six. -/
theorem log_value {s : Scaled} (low : 10 ^ 5 ≤ s.digits) (high : s.digits < 10 ^ 6) :
    Int.log 10 s.value = s.exponent := by
  have unit : (0 : ℚ) < 10 ^ (s.exponent - 5) := zpow_pos (by norm_num) _
  have low : (10 : ℚ) ^ 5 ≤ s.digits := by exact_mod_cast low
  have high : (s.digits : ℚ) < 10 ^ 6 := by exact_mod_cast high
  apply log_eq_of_bounds
  · calc (10 : ℚ) ^ s.exponent = 10 ^ 5 * 10 ^ (s.exponent - 5) := by
          rw [← zpow_natCast, ← zpow_add₀ (by norm_num)]
          congr 1
          omega
      _ ≤ s.value := mul_le_mul_of_nonneg_right low unit.le
  · calc s.value < 10 ^ 6 * 10 ^ (s.exponent - 5) := mul_lt_mul_of_pos_right high unit
      _ = (10 : ℚ) ^ (s.exponent + 1) := by
          rw [← zpow_natCast, ← zpow_add₀ (by norm_num)]
          congr 1
          omega

/-- A fraction in units of the last of six digits. -/
theorem shifted_fraction (num den : ℕ) (e : ℤ) :
    ((num * tenTo e.toNat : ℕ) : ℚ) / (den * tenTo (-e).toNat : ℕ) = num / den * 10 ^ e := by
  rw [tenTo_eq, tenTo_eq]
  push_cast
  obtain ⟨k, rfl | rfl⟩ := e.eq_nat_or_neg
  · rw [Int.toNat_natCast, Int.toNat_neg_natCast, zpow_natCast, pow_zero, mul_one, mul_div_right_comm]
  · rw [neg_neg, Int.toNat_natCast, Int.toNat_neg_natCast, zpow_neg, zpow_natCast, pow_zero, mul_one,
      div_mul_eq_div_div, div_eq_mul_inv _ ((10 : ℚ) ^ k)]

/-- The digits and the exponent are those of the fraction rounded to six digits.  If they are as many
decimals as are written, rounding the fraction to these comes to the same digits. -/
theorem rounds_ofFraction {num den : ℕ} (hn : 0 < num) (hd : 0 < den) :
    RoundsTo 6 (num / den) (ofFraction num den).value ∧
    10 ^ 5 ≤ (ofFraction num den).digits ∧ (ofFraction num den).digits < 10 ^ 6 ∧
    Nearest (num / den * 10 ^ (5 - (ofFraction num den).exponent)) (ofFraction num den).digits := by
  have positive : (0 : ℚ) < num / den := by positivity
  have exponent := decimalExponent_eq_log hn hd
  have least : (10 : ℚ) ^ decimalExponent num den ≤ num / den := by
    rw [exponent]
    exact_mod_cast Int.zpow_log_le_self (b := 10) (by norm_num) positive
  have below : (num : ℚ) / den < 10 ^ (decimalExponent num den + 1) := by
    rw [exponent]
    exact_mod_cast Int.lt_zpow_succ_log_self (b := 10) (by norm_num) ((num : ℚ) / den)
  unfold ofFraction
  simp only [show ((significantDigits : ℕ) : ℤ) - 1 - decimalExponent num den =
    5 - decimalExponent num den by simp [significantDigits]]
  generalize decimalExponent num den = e at exponent least below
  have unit : (0 : ℚ) < 10 ^ (5 - e) := zpow_pos (by norm_num) _
  have nearest := nearest_roundQuot (num * tenTo (5 - e).toNat) (den * tenTo (-(5 - e)).toNat)
    (by rw [tenTo_eq]; positivity)
  rw [shifted_fraction] at nearest
  generalize roundQuot (num * tenTo (5 - e).toNat) (den * tenTo (-(5 - e)).toNat) = n at nearest
  have low : 10 ^ 5 ≤ n := nearest.le_of_le <| by
    calc ((10 ^ 5 : ℕ) : ℚ) = 10 ^ e * 10 ^ (5 - e) := by
          rw [← zpow_add₀ (by norm_num), add_sub_cancel]
          norm_num
      _ ≤ num / den * 10 ^ (5 - e) := mul_le_mul_of_nonneg_right least unit.le
  have above : (num : ℚ) / den * 10 ^ (5 - e) < (10 ^ 6 : ℕ) := by
    calc (num : ℚ) / den * 10 ^ (5 - e) < 10 ^ (e + 1) * 10 ^ (5 - e) := mul_lt_mul_of_pos_right below unit
      _ = (10 ^ 6 : ℕ) := by
          rw [← zpow_add₀ (by norm_num), show e + 1 + (5 - e) = 6 by ring]
          norm_num
  have high : n ≤ 10 ^ 6 := nearest.ge_of_ge above.le
  have rounds : RoundsTo 6 (num / den) (n * 10 ^ (e - 5)) :=
    ⟨n, by rw [← exponent]; exact_mod_cast nearest, by rw [← exponent]; congr 2; norm_num; ring⟩
  split_ifs with carry
  · -- all six digits are nines, and the fraction is nearer to the new leading digit yet
    obtain rfl : n = 10 ^ 6 := carry
    have tenth : (num : ℚ) / den * 10 ^ (5 - (e + 1)) = num / den * 10 ^ (5 - e) / 10 := by
      rw [show 5 - (e + 1) = 5 - e - 1 by ring, zpow_sub_one₀ (by norm_num)]
      ring
    have near := (abs_le.1 nearest.close).1
    push_cast at near above
    refine ⟨?_, le_rfl, show tenTo (significantDigits - 1) < 10 ^ 6 by decide, ?_⟩
    · convert rounds using 1
      rw [value, show e + 1 - 5 = e - 5 + 1 by ring, zpow_add_one₀ (by norm_num)]
      norm_num [tenTo, significantDigits]
      ring
    · have off : |(num : ℚ) / den * 10 ^ (5 - (e + 1)) - (10 ^ 5 : ℕ)| < 1 / 2 := by
        rw [tenth, abs_lt]
        push_cast
        constructor <;> linarith
      exact ⟨off.le, fun h => absurd h off.ne⟩
  · exact ⟨rounds, low, lt_of_le_of_ne high carry, nearest⟩

end Scaled

/-! ### Numerals -/

/-- The number that digits stand for. -/
def number (ds : List Char) : ℕ := Nat.ofDigitChars 10 ds 0

theorem number_append (ds es : List Char) :
    number (ds ++ es) = number ds * 10 ^ es.length + number es := by
  rw [number, Nat.ofDigitChars_append, Nat.ofDigitChars_eq_ofDigitChars_zero, mul_comm]
  rfl

theorem number_zeros (k : ℕ) : number (List.replicate k '0') = 0 := by
  rw [number, Nat.ofDigitChars_replicate_zero, mul_zero]

/-- A number as it is written: the digits in front of the point and behind it, and the sign and the
digits of an exponent. -/
structure Numeral where
  whole : List Char
  fraction : List Char
  mark : Option (Bool × List Char)
  digits : ∀ c ∈ whole ++ fraction, c.isDigit = true
  markDigits : ∀ m ∈ mark, ∀ c ∈ m.2, c.isDigit = true

namespace Numeral

/-- The point stands only in front of digits. -/
def chars (n : Numeral) : List Char :=
  n.whole ++ (if n.fraction = [] then [] else '.' :: n.fraction) ++
    match n.mark with
    | none => []
    | some (negative, ds) => 'e' :: (if negative then '-' else '+') :: ds

/-- The exponent, zero if none is written. -/
def exponent (n : Numeral) : ℤ :=
  match n.mark with
  | none => 0
  | some (negative, ds) => if negative then -number ds else number ds

/-- What the numeral stands for. -/
def value (n : Numeral) : ℚ :=
  (number n.whole + number n.fraction / 10 ^ n.fraction.length) * 10 ^ n.exponent

end Numeral

theorem trimZeros_spec (ds : List Char) : (trimZeros ds).getLast? ≠ some '0' ∧
    ∃ k, ds = trimZeros ds ++ List.replicate k '0' := by
  constructor
  · rw [trimZeros, List.getLast?_reverse]
    intro h
    have := List.head?_dropWhile_not (· == '0') ds.reverse
    rw [h] at this
    simp at this
  · refine ⟨(ds.reverse.takeWhile (· == '0')).length, ?_⟩
    have zeros : ds.reverse.takeWhile (· == '0') =
        List.replicate (ds.reverse.takeWhile (· == '0')).length '0' :=
      List.eq_replicate_iff.2 ⟨rfl, fun c hc => by
        simpa using List.all_eq_true.1 List.all_takeWhile c hc⟩
    rw [trimZeros, ← List.reverse_replicate, ← zeros, ← List.reverse_append,
      List.takeWhile_append_dropWhile, List.reverse_reverse]

/-- Zeros at the end of a fraction count for nothing. -/
theorem fraction_trimZeros (ds : List Char) :
    (number (trimZeros ds) : ℚ) / 10 ^ (trimZeros ds).length = number ds / 10 ^ ds.length := by
  obtain ⟨-, k, hk⟩ := trimZeros_spec ds
  generalize trimZeros ds = es at hk
  subst hk
  rw [number_append, number_zeros, List.length_append, List.length_replicate, pow_add]
  push_cast
  field_simp
  ring

theorem pointed_eq (whole fraction : List Char) : pointed whole fraction =
    whole ++ if trimZeros fraction = [] then [] else '.' :: trimZeros fraction := by
  unfold pointed
  split
  · rename_i h
    rw [if_pos h, List.append_nil]
  · rename_i h
    rw [if_neg h]

namespace Numeral

variable {whole fraction : List Char} {mark : Option (Bool × List Char)}
  (digits : ∀ c ∈ whole ++ fraction, c.isDigit = true)
  (markDigits : ∀ m ∈ mark, ∀ c ∈ m.2, c.isDigit = true)

/-- The numeral of a whole part and a fraction, without the zeros at the end. -/
def trimmed : Numeral where
  whole := whole
  fraction := trimZeros fraction
  mark := mark
  digits := by
    obtain ⟨-, k, hk⟩ := trimZeros_spec fraction
    intro c hc
    refine digits c ?_
    rw [hk]
    simp only [List.mem_append] at hc ⊢
    tauto
  markDigits := markDigits

theorem value_trimmed : (trimmed digits markDigits).value = number (whole ++ fraction) /
    10 ^ fraction.length * 10 ^ (trimmed digits markDigits).exponent := by
  rw [value]
  simp only [trimmed]
  rw [fraction_trimZeros, number_append]
  push_cast
  field_simp

end Numeral

/-- The sign and the digits of an exponent, at least two. -/
def markOf (e : ℤ) : Bool × List Char :=
  (decide (e < 0), if (Nat.toDigits 10 e.natAbs).length < 2 then '0' :: Nat.toDigits 10 e.natAbs
    else Nat.toDigits 10 e.natAbs)

theorem exponentMark_eq (e : ℤ) :
    exponentMark e = 'e' :: (if (markOf e).1 then '-' else '+') :: (markOf e).2 := by
  simp [exponentMark, markOf]

theorem two_le_length_markOf (e : ℤ) : 2 ≤ (markOf e).2.length := by
  have := Nat.length_toDigits_pos (b := 10) (n := e.natAbs)
  unfold markOf
  dsimp only
  split_ifs
  · rw [List.length_cons]
    omega
  · omega

theorem number_toDigits (n : ℕ) : number (Nat.toDigits 10 n) = n := Nat.ofDigitChars_ten_toDigits

theorem number_markOf (e : ℤ) : number (markOf e).2 = e.natAbs := by
  unfold markOf
  dsimp only
  split_ifs
  · exact number_toDigits e.natAbs
  · exact number_toDigits _

theorem isDigit_toDigits {n : ℕ} : ∀ c ∈ Nat.toDigits 10 n, c.isDigit = true := fun _ hc =>
  Nat.isDigit_of_mem_toDigits (by decide) (by decide) hc

theorem isDigit_markOf (e : ℤ) : ∀ c ∈ (markOf e).2, c.isDigit = true := by
  unfold markOf
  dsimp only
  split_ifs
  · exact List.forall_mem_cons.2 ⟨by decide, isDigit_toDigits⟩
  · exact isDigit_toDigits

namespace Scaled

variable {s : Scaled}

theorem length_digits (low : 10 ^ 5 ≤ s.digits) (high : s.digits < 10 ^ 6) :
    (Nat.toDigits 10 s.digits).length = 6 := by
  have most := (Nat.length_toDigits_le_iff (b := 10) (k := 6) (by decide) (by decide)).2 high
  have more := mt (Nat.length_toDigits_le_iff (b := 10) (k := 5) (by decide) (by decide)).1
    (not_lt.2 low)
  omega

/-- Digits behind a point and an exponent come to a place of the last digit. -/
theorem value_eq {d length : ℕ} {e : ℤ} (hd : d = s.digits) (he : e - length = s.exponent - 5) :
    (d : ℚ) / 10 ^ length * 10 ^ e = s.value := by
  rw [value, ← he, hd, zpow_sub₀ (by norm_num), zpow_natCast, div_mul_eq_mul_div, mul_div_assoc]

/-- The text of six digits and an exponent. -/
theorem numeral_of_chars (low : 10 ^ 5 ≤ s.digits) (high : s.digits < 10 ^ 6) :
    ∃ n : Numeral, s.chars = n.chars ∧ n.value = s.value ∧ n.whole ≠ [] ∧
      n.fraction.getLast? ≠ some '0' ∧ (n.mark.isSome ↔ s.exponent < -4 ∨ 6 ≤ s.exponent) ∧
      ∀ mark, n.mark = some mark → 2 ≤ mark.2.length ∧ n.exponent = s.exponent := by
  have six := length_digits low high
  have digit := isDigit_toDigits (n := s.digits)
  have whole := number_toDigits s.digits
  unfold chars
  generalize Nat.toDigits 10 s.digits = ds at six digit whole
  have nonempty (k : ℕ) : ds.take (k + 1) ≠ [] := fun h => by
    have := congrArg List.length h
    rw [List.length_take, six, List.length_nil] at this
    omega
  dsimp only
  split_ifs with outside behind
  · have digits : ∀ c ∈ ds.take 1 ++ ds.drop 1, c.isDigit = true := by rwa [List.take_append_drop]
    have markDigits : ∀ m ∈ some (markOf s.exponent), ∀ c ∈ m.2, c.isDigit = true := by
      rintro _ ⟨⟩
      exact isDigit_markOf _
    -- the mark says the exponent with its sign
    have exponent : (Numeral.trimmed digits markDigits).exponent = s.exponent := by
      change (if (markOf s.exponent).1 then -(number (markOf s.exponent).2 : ℤ)
        else number (markOf s.exponent).2) = _
      rw [number_markOf]
      simp only [markOf, decide_eq_true_eq]
      split_ifs <;> omega
    refine ⟨.trimmed digits markDigits, ?_, ?_, nonempty 0, (trimZeros_spec _).1,
      iff_of_true rfl outside, ?_⟩
    · rw [pointed_eq, exponentMark_eq]
      rfl
    · rw [Numeral.value_trimmed, List.take_append_drop, exponent]
      exact value_eq whole (by rw [List.length_drop, six]; omega)
    · rintro _ ⟨⟩
      exact ⟨two_le_length_markOf _, exponent⟩
  · have digits : ∀ c ∈ ds.take (s.exponent.toNat + 1) ++ ds.drop (s.exponent.toNat + 1),
        c.isDigit = true := by rwa [List.take_append_drop]
    refine ⟨@Numeral.trimmed _ _ none digits nofun, ?_, ?_, nonempty _, (trimZeros_spec _).1,
      iff_of_false Bool.false_ne_true outside, fun _ h => nomatch h⟩
    · rw [pointed_eq]
      exact (List.append_nil _).symm
    · rw [Numeral.value_trimmed, List.take_append_drop]
      refine value_eq whole ?_
      rw [List.length_drop, six]
      simp only [positionalFrom, positionalBelow, not_or] at outside
      change (0 : ℤ) - _ = _
      omega
  · have digits : ∀ c ∈ ['0'] ++ (List.replicate ((-s.exponent).toNat - 1) '0' ++ ds),
        c.isDigit = true := by
      have zero {k : ℕ} : ∀ c ∈ List.replicate k '0', c.isDigit = true := fun c hc => by
        rw [List.eq_of_mem_replicate hc]
        rfl
      exact List.forall_mem_append.2 ⟨zero (k := 1), List.forall_mem_append.2 ⟨zero, digit⟩⟩
    -- zeros in front add nothing to the number
    have zeros : number (['0'] ++ (List.replicate ((-s.exponent).toNat - 1) '0' ++ ds)) = s.digits := by
      rw [← List.append_assoc, number_append, whole, show ['0'] = List.replicate 1 '0' from rfl,
        List.replicate_append_replicate, number_zeros, zero_mul, zero_add]
    refine ⟨@Numeral.trimmed _ _ none digits nofun, ?_, ?_, List.cons_ne_nil _ _, (trimZeros_spec _).1,
      iff_of_false Bool.false_ne_true outside, fun _ h => nomatch h⟩
    · rw [pointed_eq]
      exact (List.append_nil _).symm
    · rw [Numeral.value_trimmed]
      refine value_eq zeros ?_
      rw [List.length_append, List.length_replicate, six]
      change (0 : ℤ) - _ = _
      omega

/-- In positional notation the digits are written out with as many decimals. -/
theorem chars_eq_writtenOut (low : 10 ^ 5 ≤ s.digits) (high : s.digits < 10 ^ 6)
    (inside : ¬ (s.exponent < -4 ∨ 6 ≤ s.exponent)) : s.chars = writtenOut s.digits (s.exponent - 5) := by
  have six := length_digits low high
  unfold chars writtenOut
  generalize Nat.toDigits 10 s.digits = ds at six
  dsimp only
  rw [if_neg (show ¬ (s.exponent < positionalFrom ∨ positionalBelow ≤ s.exponent) from inside)]
  split_ifs with front last last
  · -- six digits in front of the point
    have at5 : s.exponent = 5 := by omega
    rw [at5]
    change pointed (ds.take 6) (ds.drop 6) = ds ++ List.replicate 0 '0'
    rw [List.take_of_length_le six.le, List.drop_of_length_le six.le, List.replicate_zero,
      List.append_nil]
    rfl
  · have none : (-(s.exponent - 5)).toNat + 1 - ds.length = 0 := by omega
    have place : ds.length - (-(s.exponent - 5)).toNat = s.exponent.toNat + 1 := by omega
    rw [none, List.replicate_zero, List.nil_append, place]
  · omega
  · obtain ⟨k, hk⟩ : ∃ k : ℕ, s.exponent = -(k + 1 : ℕ) := ⟨(-s.exponent).toNat - 1, by omega⟩
    have zeros : (-(s.exponent - 5)).toNat + 1 - ds.length = k + 1 := by omega
    have place : (List.replicate (k + 1) '0' ++ ds).length - (-(s.exponent - 5)).toNat = 1 := by
      rw [List.length_append, List.length_replicate]
      omega
    have behind : (-s.exponent).toNat - 1 = k := by omega
    rw [zeros, place, behind]
    rfl

end Scaled

/-! ### Floats -/

section Bits

open Float.Model Float.Model.UnpackedFloat

variable (b : BitVec Format.binary64.numBits)

theorem toNat_unpackMantissa : (unpackMantissa b).toNat = b.toNat % 2 ^ 52 := by
  simp [unpackMantissa, BitVec.extractLsb_toNat]

theorem toNat_unpackExponent : (unpackExponent b).toNat = b.toNat / 2 ^ 52 % 2 ^ 11 := by
  simp [unpackExponent, BitVec.extractLsb_toNat, Nat.shiftRight_eq_div_pow]

theorem toNat_unpackSign : (unpackSign b).toNat = b.toNat / 2 ^ 63 := by
  have range : b.toNat < 2 ^ 64 := b.isLt
  simp [unpackSign, BitVec.extractLsb_toNat, Nat.shiftRight_eq_div_pow]
  omega

theorem sign_of_unpackSign :
    (b.toNat / 2 ^ 63 == 1) = (Sign.ofBitVec (unpackSign b) == .negative) := by
  rw [← toNat_unpackSign]
  generalize unpackSign b = s
  revert s
  decide

/-- The sign, the significand and the exponent of a finite float that is not zero. -/
theorem ofFloat_of_unpack {x : Float} {s : Sign} {m : ℕ} {q : ℤ} {pos : 0 < m}
    (h : x.toModel.unpack = .finite s m q pos) :
    Reading.ofFloat x = .finite (s == .negative) m q := by
  obtain ⟨b, hb⟩ : ∃ b : BitVec Format.binary64.numBits, b = x.toBits.toBitVec := ⟨_, rfl⟩
  have h : UnpackedFloat.unpack .binary64 b = .finite s m q pos := hb ▸ h
  have bits : x.toBits.toNat = b.toNat := hb ▸ rfl
  have hidden : Reading.hiddenBit = 2 ^ 52 := rfl
  have sign : (b.toNat / (2048 * 2 ^ 52) == 1) = _ := sign_of_unpackSign b
  unfold Reading.ofFloat Reading.ofBits
  dsimp only
  rw [bits, hidden, sign, ← toNat_unpackMantissa, show 2048 = 2 ^ 11 from rfl, ← toNat_unpackExponent]
  unfold UnpackedFloat.unpack at h
  dsimp only at h
  have ones : unpackExponent b = -1#11 ↔ (unpackExponent b).toNat = 2047 := BitVec.toNat_inj.symm
  have zeros : unpackExponent b = 0#11 ↔ (unpackExponent b).toNat = 0 := BitVec.toNat_inj.symm
  have implicit : (1#1 ++ unpackMantissa b).toNat = (unpackMantissa b).toNat + 2 ^ 52 := by
    rw [BitVec.toNat_append, ← Nat.shiftLeft_add_eq_or_of_lt (BitVec.isLt _)]
    exact Nat.add_comm _ _
  split_ifs at h with allOnes none zero nothing
  · obtain ⟨rfl, rfl, rfl⟩ := finite.inj h
    have small := zeros.1 zero
    rw [if_neg (by omega), if_pos small, small]
    congr 1
  · obtain ⟨rfl, rfl, rfl⟩ := finite.inj h
    rw [if_neg (mt ones.2 allOnes), if_neg (mt zeros.2 zero), implicit]
    congr 1

end Bits

theorem fraction_eq (m : ℕ) (q : ℤ) :
    ((Reading.fraction m q).1 : ℚ) / (Reading.fraction m q).2 = m * 2 ^ q := by
  simp only [Reading.fraction, twoTo_eq]
  push_cast
  obtain ⟨k, rfl | rfl⟩ := q.eq_nat_or_neg
  · rw [Int.toNat_natCast, Int.toNat_neg_natCast, zpow_natCast, pow_zero, div_one]
  · rw [neg_neg, Int.toNat_natCast, Int.toNat_neg_natCast, zpow_neg, zpow_natCast, pow_zero, mul_one,
      div_eq_mul_inv]

/-- The numeral is the general form of a number: the number is rounded to six significant digits, no
zeros are left at the end of the fraction, and an exponent is written if the leading digit of the
rounded number stands far enough from the point. -/
structure General (r : ℚ) (n : Numeral) : Prop where
  rounds : RoundsTo 6 r n.value
  whole : n.whole ≠ []
  fraction : n.fraction.getLast? ≠ some '0'
  marked : n.mark.isSome ↔ Int.log 10 n.value < -4 ∨ 6 ≤ Int.log 10 n.value
  mark : ∀ mark, n.mark = some mark → 2 ≤ mark.2.length ∧ n.exponent = Int.log 10 n.value
  /-- Rounding the number again, to the decimals of the numeral, changes nothing. -/
  again : n.mark = none → ∃ k : ℕ, Nearest (r * 10 ^ (5 - Int.log 10 n.value)) k ∧
    n.value = k * 10 ^ (Int.log 10 n.value - 5) ∧ n.chars = writtenOut k (Int.log 10 n.value - 5)

theorem Scaled.general_of_fraction {num den : ℕ} (hn : 0 < num) (hd : 0 < den) :
    ∃ n, General (num / den) n ∧ (ofFraction num den).chars = n.chars := by
  obtain ⟨rounds, low, high, nearest⟩ := rounds_ofFraction hn hd
  obtain ⟨n, chars, value, whole, fraction, marked, mark⟩ := numeral_of_chars low high
  have place : Int.log 10 n.value = (ofFraction num den).exponent := by rw [value, log_value low high]
  refine ⟨n, ⟨value ▸ rounds, whole, fraction, place ▸ marked, place ▸ mark, fun unmarked => ?_⟩, chars⟩
  rw [place]
  refine ⟨_, nearest, value, ?_⟩
  rw [← chars]
  refine chars_eq_writtenOut low high (mt marked.2 ?_)
  rw [unmarked]
  exact Bool.false_ne_true

/-- The text of a finite float that is not zero: its sign and the general form of its magnitude. -/
theorem text_of_float {x : Float} {s : Float.Model.UnpackedFloat.Sign} {m : ℕ} {q : ℤ} {pos : 0 < m}
    (h : x.toModel.unpack = .finite s m q pos) :
    ∃ n, General (m * 2 ^ q) n ∧
      (floatText x).toList = (if s == .negative then ['-'] else []) ++ n.chars := by
  have hn : 0 < (Reading.fraction m q).1 := by
    simp only [Reading.fraction, twoTo_eq]
    positivity
  have hd : 0 < (Reading.fraction m q).2 := by
    simp only [Reading.fraction, twoTo_eq]
    positivity
  obtain ⟨n, general, chars⟩ := Scaled.general_of_fraction hn hd
  rw [fraction_eq] at general
  refine ⟨n, general, ?_⟩
  rw [floatText, ofFloat_of_unpack h, Reading.text, String.toList_ofList, if_neg pos.ne']
  dsimp only
  rw [chars]
  split_ifs <;> rfl

/-- The greatest float below ten. -/
theorem text_below_ten :
    (Float.ofBits 0x4023FFFFFFFFFFFF).toModel.unpack =
      .finite .positive 5629499534213119 (-49) (by decide) ∧
    ∃ n, General ((5629499534213119 : ℕ) * 2 ^ (-49 : ℤ)) n ∧
      (floatText (Float.ofBits 0x4023FFFFFFFFFFFF)).toList = [] ++ n.chars := by
  have below : (Float.ofBits 0x4023FFFFFFFFFFFF).toModel.unpack =
      .finite .positive 5629499534213119 (-49) (by decide) := rfl
  exact ⟨below, text_of_float below⟩

example : floatText (Float.ofBits 0x4023FFFFFFFFFFFF) = "10" := by decide +kernel

end Rewind.Decimal
