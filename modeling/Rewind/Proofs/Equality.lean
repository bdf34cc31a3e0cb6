/-
Equality of values.

Two integers are equal exactly, two floats as numbers, and everything that lives in a cell by its
identity.  An integer and a float are compared after the integer has been rounded to a float.  Each of
these comparisons is symmetric and transitive, and all but one of the ways to put two of them together
are transitive again: a float may equal two integers that are not the same.  It takes an integer beyond
the 53 bits of a float for that, since all others are floats exactly.

* `amount?` — what a float amounts to, by which floats are compared;
* `roundWithAccuracy_exact` — nothing is rounded off a number of 53 bits;
* `unpack_ofInt` — the float of an integer below 2 ^ 53;
* `equality_of_values` — the laws of `==`.
-/
import Rewind.Value
import Mathlib

namespace Rewind

open Float.Model Float.Model.UnpackedFloat

/-! ### Floats -/

/-- What a float amounts to: zero has no sign, and what is no number amounts to nothing. -/
def amount? (x : Float) : Option UnpackedFloat :=
  match x.toModel.unpack with
  | .notANumber => none
  | .zero _ => some (.zero .positive)
  | u => some u

/-- Two floats are equal if they amount to the same. -/
theorem beq_iff {x y : Float} : (x == y) = true ↔ ∃ u, amount? x = some u ∧ amount? y = some u := by
  have unfolded : (x == y) = (x.toModel.unpack.compare y.toModel.unpack == some .eq) := rfl
  rw [unfolded, beq_iff_eq, amount?, amount?]
  cases x.toModel.unpack with
  | notANumber => simp [UnpackedFloat.compare]
  | zero s =>
    cases y.toModel.unpack with
    | notANumber | zero => simp [UnpackedFloat.compare]
    | infinity t | finite t => cases t <;> simp [UnpackedFloat.compare]
  | infinity s =>
    cases y.toModel.unpack with
    | infinity t => cases s <;> cases t <;> simp [UnpackedFloat.compare, compare]
    | notANumber | zero | finite => cases s <;> simp [UnpackedFloat.compare]
  | finite s m e =>
    cases y.toModel.unpack with
    | finite t n d =>
      cases s <;> cases t <;>
        simp [UnpackedFloat.compare, and_comm, eq_comm (a := d), eq_comm (a := n)]
    | notANumber | zero => cases s <;> simp [UnpackedFloat.compare]
    | infinity t => cases s <;> cases t <;> simp [UnpackedFloat.compare]

theorem isNaN_iff {x : Float} : x.isNaN = true ↔ amount? x = none := by
  have unfolded : x.isNaN = x.toModel.unpack.isNaN := rfl
  rw [unfolded, amount?]
  cases x.toModel.unpack <;> simp [UnpackedFloat.isNaN]

/-! ### Integers of 53 bits -/

/-- Digits that are nothing leave no trace when they are dropped. -/
theorem repeat_shiftRightOne (m k : Nat) :
    k.repeat ExtendedMantissa.shiftRightOne ⟨m * 2 ^ k, false, false⟩ = ⟨m, false, false⟩ := by
  induction k generalizing m with
  | zero => rw [Nat.pow_zero, Nat.mul_one]; rfl
  | succ k ih =>
    rw [Nat.repeat, Nat.pow_succ', ← Nat.mul_assoc, ih]
    simp [ExtendedMantissa.shiftRightOne]

theorem log2_shifted {m : Nat} (hm : 2 ^ 52 ≤ m) (hlt : m < 2 ^ 53) (k : Nat) :
    (m * 2 ^ k).log2 = 52 + k := by
  have pos : 0 < 2 ^ k := Nat.two_pow_pos k
  rw [Nat.log2_eq_iff (Nat.mul_ne_zero (by omega) (by omega))]
  constructor
  · rw [Nat.pow_add]
    exact Nat.mul_le_mul_right _ hm
  · rw [show 52 + k + 1 = 53 + k by omega, Nat.pow_add]
    exact Nat.mul_lt_mul_of_pos_right hlt pos

/-- The exponent that a number of 53 bits is brought to is the one it has. -/
theorem shift_exact {m : Nat} (hm : 2 ^ 52 ≤ m) (hlt : m < 2 ^ 53) (k : Nat) {e : Int}
    (he : -1074 ≤ e) :
    shiftToTargetExponent .binary64 (m * 2 ^ k) (e - k) .exact = (⟨m, false, false⟩, e) := by
  have target : Format.binary64.targetExponent (totalExponent (m * 2 ^ k) (e - k)) = e := by
    rw [totalExponent, log2_shifted hm hlt, Format.targetExponent]
    simp only [Format.mantissaBits, Format.minExponent]
    omega
  rw [shiftToTargetExponent, target, shiftToExponent]
  have amount : (e - (e - k)).toNat = k := by omega
  rw [amount]
  exact Prod.ext (repeat_shiftRightOne m k) (by omega)

/-- Nothing is rounded off a number of 53 bits. -/
theorem roundWithAccuracy_exact {m : Nat} (hm : 2 ^ 52 ≤ m) (hlt : m < 2 ^ 53) (k : Nat) {e : Int}
    (he : -1074 ≤ e) (s : Sign) :
    roundWithAccuracy .binary64 s (m * 2 ^ k) (e - k) .exact = .finite s m e (by omega) := by
  have first := shift_exact hm hlt k he
  have second : shiftToTargetExponent .binary64 m e .exact = (⟨m, false, false⟩, e) := by
    simpa using shift_exact hm hlt 0 he
  have nonzero : m ≠ 0 := by omega
  unfold roundWithAccuracy
  rw [first]
  have rounded : (ExtendedMantissa.mk m false false).roundedMantissa = m := rfl
  simp only [rounded, second, dif_neg nonzero]

theorem ofBitVec_toBitVec (s : Sign) : Sign.ofBitVec s.toBitVec = s := by
  cases s <;> rfl

theorem unpackSign_packComponents (f : Format) (s : Sign) (e : BitVec f.exponentBits)
    (m : BitVec f.mantissaBitsWithoutImplicit) :
    @unpackSign f (packComponents f s e m) = s.toBitVec := by
  apply BitVec.eq_of_getLsbD_eq
  intro i hi
  obtain rfl : i = 0 := by omega
  simp [unpackSign, packComponents, BitVec.getLsbD_append, BitVec.getElem_append]

/-- A number of 53 bits in the middle of the range is kept in the bits of a float. -/
theorem unpack_pack {m : Nat} (hm : 2 ^ 52 ≤ m) (hlt : m < 2 ^ 53) {e : Int} (he : -52 ≤ e)
    (hle : e ≤ 0) (s : Sign) (pos : 0 < m) :
    (Float.Model.pack (.finite s m e pos)).unpack = .finite s m e pos := by
  obtain ⟨b, hb⟩ : ∃ b : Nat, e + 1075 = b := Int.eq_ofNat_of_zero_le (by omega)
  have bits : UnpackedFloat.pack .binary64 (.finite s m e pos) =
      packComponents .binary64 s (BitVec.ofNat 11 b) (BitVec.ofNat 52 m) := by
    have log : m.log2 = 52 := by simpa using log2_shifted hm hlt 0
    have biased : (e + (Format.binary64.exponentBias : Nat) + (52 : Nat)).toNat = b := by
      rw [show Format.binary64.exponentBias = 1023 from rfl]
      omega
    rw [UnpackedFloat.pack]
    simp only [biased, log]
    rw [if_neg (by omega), if_pos (by decide)]
  change UnpackedFloat.unpack .binary64 (UnpackedFloat.pack .binary64 _) = _
  rw [bits, UnpackedFloat.unpack]
  simp only [unpackMantissa_packComponents, unpackExponent_packComponents,
    unpackSign_packComponents, ofBitVec_toBitVec]
  have exponent : (BitVec.ofNat 11 b).toNat = b := by
    rw [BitVec.toNat_ofNat, Nat.mod_eq_of_lt (by omega)]
  -- the biased exponent is that of a normal number: neither all ones nor all zeros
  have finite : BitVec.ofNat 11 b ≠ -1#11 := fun h => by
    have := congrArg BitVec.toNat h
    rw [exponent] at this
    simp at this
    omega
  have normal : BitVec.ofNat 11 b ≠ 0#11 := fun h => by
    have := congrArg BitVec.toNat h
    rw [exponent] at this
    simp at this
    omega
  -- the leading digit is not stored, and put back in front
  have mantissa : (1#1 ++ BitVec.ofNat 52 m).toNat = m := by
    rw [BitVec.toNat_append, ← Nat.shiftLeft_add_eq_or_of_lt (BitVec.isLt _), BitVec.toNat_ofNat]
    simp [Nat.shiftLeft_eq]
    omega
  rw [if_neg finite, if_neg normal]
  simp only [mantissa, exponent]
  congr 1
  rw [show Format.binary64.exponentBias = 1023 from rfl]
  omega

/-- The digits of a number, moved to the highest of 53 places. -/
theorem highest_digits {n : Nat} (hn : n ≠ 0) (hlt : n < 2 ^ 53) :
    2 ^ 52 ≤ n * 2 ^ (52 - n.log2) ∧ n * 2 ^ (52 - n.log2) < 2 ^ 53 := by
  have small : n.log2 ≤ 52 := Nat.le_of_lt_succ ((Nat.log2_lt hn).2 hlt)
  obtain ⟨k, hk⟩ : ∃ k, 52 = n.log2 + k := ⟨52 - n.log2, by omega⟩
  rw [show 52 - n.log2 = k by omega]
  constructor
  · rw [hk, Nat.pow_add]
    exact Nat.mul_le_mul_right _ (Nat.log2_self_le hn)
  · rw [show 53 = n.log2 + 1 + k by omega, Nat.pow_add]
    exact Nat.mul_lt_mul_of_pos_right Nat.lt_log2_self (Nat.two_pow_pos k)

/-- The float of a positive integer below 2 ^ 53 has its digits, moved to the highest place. -/
theorem unpack_ofNat {n : Nat} (hn : n ≠ 0) (hlt : n < 2 ^ 53) :
    ∃ pos, (Float.ofNat n).toModel.unpack =
      .finite .positive (n * 2 ^ (52 - n.log2)) (n.log2 - 52) pos := by
  have small : n.log2 ≤ 52 := Nat.le_of_lt_succ ((Nat.log2_lt hn).2 hlt)
  obtain ⟨low, high⟩ := highest_digits hn hlt
  obtain ⟨k, hk⟩ : ∃ k, 52 - n.log2 = k := ⟨_, rfl⟩
  rw [hk] at low high
  have pos : 0 < n * 2 ^ k := by omega
  -- below two to the power of 53 nothing is lost by rounding
  have rounded : UnpackedFloat.round .binary64 .positive n 0 =
      .finite .positive (n * 2 ^ k) (-k) pos := by
    have target : Format.binary64.targetExponent (totalExponent n 0) = -k := by
      simp only [totalExponent, Format.targetExponent, Format.minExponent, Format.mantissaBits]
      omega
    have exact := roundWithAccuracy_exact low high 0 (e := -k) (by omega) .positive
    rw [Nat.pow_zero, Nat.mul_one] at exact
    rw [UnpackedFloat.round, target, decreaseExponent, Nat.shiftLeft_eq]
    rw [show (0 - -(k : Int)).toNat = k by omega]
    convert exact using 2
    omega
  have single : (Float.ofBits 0x3FF0000000000000).toModel.unpack =
      .finite .positive (2 ^ 52) (-52) (by decide) := rfl
  -- the conversion multiplies by one, which changes nothing
  have product : Float.ofNat n = n.toUInt64.toFloat * Float.ofBits 0x3FF0000000000000 := by
    change Float.ofScientific n false 0 = _
    rw [Float.ofScientific, dif_pos ⟨hlt, by decide⟩]
    rfl
  have converted : n.toUInt64.toFloat.toModel =
      Float.Model.pack (.finite .positive (n * 2 ^ k) (-k) pos) := by
    have whole : n.toUInt64.toNat = n := Nat.mod_eq_of_lt (by omega)
    change Float.Model.pack (UnpackedFloat.normalize .binary64 (n.toUInt64.toNat : Int) 0 .positive) = _
    rw [whole, UnpackedFloat.normalize, show compare (n : Int) 0 = .gt from Int.compare_eq_gt.2 (by omega)]
    simp only [Int.toNat_natCast, rounded]
  refine ⟨by rwa [hk], ?_⟩
  have factors : (Float.ofNat n).toModel = Float.Model.pack (UnpackedFloat.mul .binary64
      n.toUInt64.toFloat.toModel.unpack (Float.ofBits 0x3FF0000000000000).toModel.unpack) :=
    congrArg Float.toModel product
  have multiplied : UnpackedFloat.mul .binary64 (.finite .positive (n * 2 ^ k) (-k) pos)
      (.finite .positive (2 ^ 52) (-52) (by decide)) = .finite .positive (n * 2 ^ k) (-k) pos :=
    roundWithAccuracy_exact low high 52 (e := -k) (by omega) .positive
  rw [factors, converted, unpack_pack low high (by omega) (by omega), single, multiplied,
    unpack_pack low high (by omega) (by omega)]
  congr <;> omega

/-- The float of an integer of at most 53 bits has its sign and its digits. -/
theorem unpack_ofInt {n : Int} (hn : n ≠ 0) (hlt : n.natAbs < 2 ^ 53) :
    ∃ pos, (Float.ofInt n).toModel.unpack =
      .finite (if n < 0 then .negative else .positive) (n.natAbs * 2 ^ (52 - n.natAbs.log2))
        (n.natAbs.log2 - 52) pos := by
  obtain ⟨pos, digits⟩ := unpack_ofNat (Int.natAbs_ne_zero.2 hn) hlt
  refine ⟨pos, ?_⟩
  cases n with
  | ofNat n => exact digits
  | negSucc n =>
    have negated : (Float.ofInt (.negSucc n)).toModel =
        Float.Model.pack (Float.ofNat (Int.negSucc n).natAbs).toModel.unpack.neg := rfl
    have nonzero : (Int.negSucc n).natAbs ≠ 0 := Int.natAbs_ne_zero.2 hn
    have small : (Int.negSucc n).natAbs.log2 ≤ 52 := Nat.le_of_lt_succ ((Nat.log2_lt nonzero).2 hlt)
    obtain ⟨low, high⟩ := highest_digits nonzero hlt
    rw [if_pos (Int.negSucc_lt_zero n), negated, digits]
    exact unpack_pack low high (by omega) (by omega) .negative pos

/-- Two integers of at most 53 bits that are rounded to equal floats are the same. -/
theorem eq_of_rounded {m n : Int} (hm : m.natAbs < 2 ^ 53) (hn : n.natAbs < 2 ^ 53)
    (h : (Float.ofInt m == Float.ofInt n) = true) : m = n := by
  obtain ⟨u, hu, hv⟩ := beq_iff.1 h
  have zero : amount? (Float.ofInt 0) = some (.zero .positive) := rfl
  have digits {k : Int} (hk : k ≠ 0) (hlt : k.natAbs < 2 ^ 53) : ∃ pos, amount? (Float.ofInt k) =
      some (.finite (if k < 0 then .negative else .positive)
        (k.natAbs * 2 ^ (52 - k.natAbs.log2)) (k.natAbs.log2 - 52) pos) := by
    obtain ⟨pos, unpacked⟩ := unpack_ofInt hk hlt
    exact ⟨pos, by rw [amount?, unpacked]⟩
  -- zero has no digits, and no other number is unpacked as it is
  by_cases hm₀ : m = 0 <;> by_cases hn₀ : n = 0
  · rw [hm₀, hn₀]
  · obtain ⟨pos, hd⟩ := digits hn₀ hn
    rw [hm₀, zero] at hu
    rw [hd, ← hu] at hv
    nomatch hv
  · obtain ⟨pos, hd⟩ := digits hm₀ hm
    rw [hn₀, zero] at hv
    rw [hd, ← hv] at hu
    nomatch hu
  · obtain ⟨pos, hd⟩ := digits hm₀ hm
    obtain ⟨pos', hd'⟩ := digits hn₀ hn
    rw [hd, ← hv, hd'] at hu
    obtain ⟨sign, mantissa, exponent⟩ := UnpackedFloat.finite.inj (Option.some.inj hu)
    -- the highest digits stand at the same place, so the mantissas are those of the numbers
    have place : m.natAbs.log2 = n.natAbs.log2 := by omega
    rw [place] at mantissa
    have size : m.natAbs = n.natAbs := Nat.eq_of_mul_eq_mul_right (Nat.two_pow_pos _) mantissa
    by_cases hneg : m < 0 <;> by_cases hneg' : n < 0 <;> simp [hneg, hneg'] at sign <;> omega

/-! ### Values -/

theorem float_beq_comm (x y : Float) : (x == y) = (y == x) := by
  rw [Bool.eq_iff_iff, beq_iff, beq_iff]
  exact exists_congr fun _ => and_comm

theorem float_beq_trans {x y z : Float} (h : (x == y) = true) (h' : (y == z) = true) :
    (x == z) = true := by
  obtain ⟨u, hx, hy⟩ := beq_iff.1 h
  obtain ⟨v, hy', hz⟩ := beq_iff.1 h'
  obtain rfl : u = v := Option.some.inj (hy.symm.trans hy')
  exact beq_iff.2 ⟨u, hx, hz⟩

namespace Value

/-- The float that is no number. -/
def IsNaN (a : Value) : Prop := ∃ x, a = .float x ∧ x.isNaN = true

theorem equals_self {a : Value} (h : ¬ a.IsNaN) : a.equals a = true := by
  cases a with
  | float x =>
    have number : amount? x ≠ none := fun hx => h ⟨x, rfl, isNaN_iff.2 hx⟩
    obtain ⟨u, hu⟩ := Option.ne_none_iff_exists'.1 number
    exact beq_iff.2 ⟨u, hu, hu⟩
  | _ => simp [equals, identical]

theorem equals_comm (a b : Value) : a.equals b = b.equals a := by
  cases a <;> cases b <;> simp [equals, identical, float_beq_comm, Bool.beq_comm]

/-- Both are integers. -/
def Whole (a b : Value) : Prop := ∃ m n, a = .int m ∧ b = .int n

/-- Numbers aside, values are equal only if they are the same. -/
theorem equals_cases {a b : Value} (h : a.equals b = true) :
    a = b ∨ ¬ Whole a b ∧ ∃ x y, a.number? = some x ∧ b.number? = some y ∧ (x == y) = true := by
  cases a with
  | int m =>
    cases b with
    | int n => exact .inl (congrArg int (eq_of_beq h))
    | float y => exact .inr ⟨(fun ⟨_, _, _, hn⟩ => nomatch hn), _, y, rfl, rfl, h⟩
    | _ => contradiction
  | float x =>
    cases b with
    | int n => exact .inr ⟨(fun ⟨_, _, hm, _⟩ => nomatch hm), x, _, rfl, rfl, h⟩
    | float y => exact .inr ⟨(fun ⟨_, _, hm, _⟩ => nomatch hm), x, y, rfl, rfl, h⟩
    | _ => contradiction
  | _ =>
    left
    cases b <;> first | contradiction | rfl | exact congrArg _ (eq_of_beq h)

theorem equals_of_numbers {a b : Value} {x y : Float} (ha : a.number? = some x)
    (hb : b.number? = some y) (h : (x == y) = true) : a.equals b = true ∨ Whole a b := by
  -- only two integers are compared otherwise than as floats
  cases a with
  | int m =>
    cases b with
    | int n => exact .inr ⟨m, n, rfl, rfl⟩
    | float z =>
      obtain rfl := Option.some.inj ha
      obtain rfl := Option.some.inj hb
      exact .inl h
    | _ => contradiction
  | float w =>
    obtain rfl := Option.some.inj ha
    cases b with
    | int n =>
      obtain rfl := Option.some.inj hb
      exact .inl h
    | float z =>
      obtain rfl := Option.some.inj hb
      exact .inl h
    | _ => contradiction
  | _ => contradiction

/-- Equality is transitive but for a float between two different integers. -/
theorem equals_trans {a b c : Value} (hab : a.equals b = true) (hbc : b.equals c = true) :
    a.equals c = true ∨ ∃ m x n, a = .int m ∧ b = .float x ∧ c = .int n ∧ m ≠ n ∧
      ¬ (m.natAbs < 2 ^ 53 ∧ n.natAbs < 2 ^ 53) := by
  obtain rfl | ⟨mixed, x, y, hx, hy, hxy⟩ := equals_cases hab
  · exact .inl hbc
  obtain rfl | ⟨-, y', z, hy', hz, hyz⟩ := equals_cases hbc
  · exact .inl hab
  obtain rfl : y = y' := Option.some.inj (hy.symm.trans hy')
  have hxz : (x == z) = true := float_beq_trans hxy hyz
  obtain h | ⟨m, n, rfl, rfl⟩ := equals_of_numbers hx hz hxz
  · exact .inl h
  by_cases hmn : m = n
  · exact .inl (beq_iff_eq.2 hmn)
  obtain ⟨w, rfl⟩ : ∃ w, b = .float w := by
    cases b with
    | int k => exact absurd ⟨m, k, rfl, rfl⟩ mixed
    | float w => exact ⟨w, rfl⟩
    | _ => contradiction
  refine .inr ⟨m, w, n, rfl, rfl, rfl, hmn, fun ⟨hm, hn⟩ => hmn (eq_of_rounded hm hn ?_)⟩
  rwa [Option.some.inj hx, Option.some.inj hz]

end Value

/-- The laws of `==`: every value but the float that is no number equals itself, equality is symmetric,
and it is transitive but for a float that equals two different integers, not both of at most 53 bits. -/
theorem equality_of_values :
    (∀ a : Value, ¬ a.IsNaN → a.equals a = true) ∧
    (∀ a b : Value, a.equals b = true → b.equals a = true) ∧
    ∀ a b c : Value, a.equals b = true → b.equals c = true → a.equals c = true ∨
      ∃ m x n, a = .int m ∧ b = .float x ∧ c = .int n ∧ m ≠ n ∧
        ¬ (m.natAbs < 2 ^ 53 ∧ n.natAbs < 2 ^ 53) :=
  ⟨fun _ => Value.equals_self, fun a b h => (Value.equals_comm a b).symm.trans h,
    fun _ _ _ => Value.equals_trans⟩

/-- The laws at the first float between two integers. -/
theorem equality_beyond_digits :
    (Value.int (2 ^ 53)).equals (.int (2 ^ 53)) = true ∧
    (Value.float (Float.ofInt (2 ^ 53))).equals (.int (2 ^ 53)) = true ∧
    ∃ m x n, Value.int (2 ^ 53) = .int m ∧ Value.float (Float.ofInt (2 ^ 53)) = .float x ∧
      Value.int (2 ^ 53 + 1) = .int n ∧ m ≠ n ∧ ¬ (m.natAbs < 2 ^ 53 ∧ n.natAbs < 2 ^ 53) := by
  obtain ⟨self, symm, trans⟩ := equality_of_values
  refine ⟨self _ (fun ⟨_, h, _⟩ => nomatch h), symm _ _ (by decide +kernel), ?_⟩
  exact (trans (.int (2 ^ 53)) (.float (Float.ofInt (2 ^ 53))) (.int (2 ^ 53 + 1))
    (by decide +kernel) (by decide +kernel)).resolve_left (by decide +kernel)

/-- A float equals the integer it comes from and the next one, but these are two. -/
theorem equality_not_transitive : ¬ ∀ a b c : Value, ¬ a.IsNaN → ¬ b.IsNaN → ¬ c.IsNaN →
    a.equals b = true → b.equals c = true → a.equals c = true := by
  intro trans
  have number : ¬ (Value.float (Float.ofInt (2 ^ 53))).IsNaN := fun ⟨x, hx, h⟩ => by
    rw [← Value.float.inj hx] at h
    revert h
    decide +kernel
  have equal := trans (.int (2 ^ 53 + 1)) (.float (Float.ofInt (2 ^ 53))) (.int (2 ^ 53))
    (fun ⟨_, h, _⟩ => nomatch h) number (fun ⟨_, h, _⟩ => nomatch h)
    (by decide +kernel) (by decide +kernel)
  revert equal
  decide +kernel

end Rewind
