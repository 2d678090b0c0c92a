import AckFormal.Flt.Decimals
import AckFormal.Flt.Scaling

/-!
# The accuracy of literals

A literal whose digits never pass through an unsafe number, and whose decimal
exponent fits, converts with a relative error of less than `2 ^ -57`: the
digits left out cost one part in the guard, the scaling two entries and two
products.  Outside of this a digit overflows the mantissa, or the power of ten
is another one.
-/

namespace AckFormal.Flt.Literals

open Mantissa Number FltArith Operations Str2Flt Sums Scaling Decimals Lib.RelativeError
  Lib.Truncation

structure Accurate (n : Numeral) : Prop where
  close : |value (fltStr2flt n.text).1 - n.value| < |n.value| / 2 ^ 57
  noCarry : literalCarries n.text = false

def InInt (x : Int) : Prop := -2 ^ 31 ≤ x ∧ x < 2 ^ 31

instance (x : Int) : Decidable (InInt x) := inferInstanceAs (Decidable (_ ∧ _))

theorem toInt_eq_iff (x : Int) : toInt x = x ↔ InInt x := by
  unfold toInt InInt
  omega

theorem toInt_apart {x : Int} (outside : ¬ InInt x) : x + 2 ≤ toInt x ∨ toInt x + 2 ≤ x := by
  unfold toInt
  unfold InInt at outside
  omega

variable {n : Numeral} {m skipped : Nat}

theorem number_ne_zero (nonzero : n.value ≠ 0) : continued 0 n.digits ≠ 0 := by
  intro empty
  refine nonzero ?_
  unfold Numeral.value
  rw [empty]
  cases n.sign == some true <;> simp

section

variable {digits : List (Fin 10)} {n : Nat} (gathered : Gathered digits n m skipped)
include gathered

theorem kept_within :
    Within (1 / guarded) (m * 10 ^ skipped : Nat) (continued n digits : Nat) := by
  obtain ⟨low, high, stopped, -⟩ := gathered
  unfold Within
  rw [abs_sub_comm, abs_of_nonneg (sub_nonneg.mpr (by exact_mod_cast low)), Nat.abs_cast,
    ← Nat.cast_sub low]
  by_cases none : skipped = 0
  · rw [none, pow_zero] at low high ⊢
    rw [show continued n digits - m * 1 = 0 by omega, Nat.cast_zero]
    positivity
  · have left : (continued n digits - m * 10 ^ skipped) * guarded ≤ continued n digits := by
      calc (continued n digits - m * 10 ^ skipped) * guarded
          ≤ 10 ^ skipped * guarded := Nat.mul_le_mul_right _ (by rw [add_mul] at high; omega)
        _ ≤ m * 10 ^ skipped := by
            rw [mul_comm]
            exact Nat.mul_le_mul_right _ (stopped none)
        _ ≤ continued n digits := low
    have positive : (0 : ℚ) < guarded := by
      unfold guarded
      norm_num
    rw [one_div, inv_mul_eq_div, le_div_iff₀ positive]
    exact_mod_cast left

theorem kept_pos (nonzero : continued n digits ≠ 0) : 0 < m := by
  by_contra empty
  have none : skipped = 0 := by
    by_contra some
    have stopped := gathered.stopped some
    unfold guarded at stopped
    omega
  have high := gathered.high
  rw [none, pow_zero] at high
  omega

end

theorem fltStr2flt_within {s : List UInt8} (scanned : Scanned n s)
    (positive : 0 < (gather n.digits 0).1) (inside : |(scanLiteral s).exp| < 560) :
    Within scaled (value (fltStr2flt s).1)
      (signed (n.sign == some true) (gather n.digits 0).1 * 10 ^ (scanLiteral s).exp) := by
  obtain ⟨sign, mantissa, -, -⟩ := scanned
  have nonzero : (scanLiteral s).mantissa ≠ FltMantissa.zero := by
    intro empty
    rw [← mantissa, FltMantissa.value_eq_zero.mpr empty] at positive
    exact absurd positive (lt_irrefl 0)
  obtain ⟨normal, low, high⟩ :=
    fltNrm_integer (e := ⟨(scanLiteral s).sign, 63, (scanLiteral s).mantissa⟩) nonzero rfl
  obtain ⟨z, result, -, zLow, zHigh, within⟩ := addExponent_within normal low high inside
  have start : value (fltNrm ⟨(scanLiteral s).sign, 63, (scanLiteral s).mantissa⟩) =
      signed (n.sign == some true) (gather n.digits 0).1 := by
    rw [value_fltNrm (by decide : (-32000 : Int) ≤ 63) (by decide : (63 : Int) ≤ 32000), value_mk,
      sign, mantissa]
    unfold unit
    simp
  have inRange : extMin < z.exp ∧ z.exp < extMax := by
    unfold extMin extMax
    omega
  rw [fltStr2flt_nonzero nonzero]
  rw [result]
  rw [fltChk_of_range _ inRange.1 inRange.2, ← start]
  exact within

theorem abs_value (n : Numeral) :
    |n.value| = continued 0 n.digits * 10 ^ (n.power - n.places) := by
  unfold Numeral.value
  rw [abs_mul, ← Int.cast_abs, abs_signed, Int.cast_natCast, abs_of_pos (by positivity)]

theorem signed_within {v t : Nat} {ε : ℚ} (within : Within ε v t) (sign : Bool) (power : ℚ) :
    Within ε (signed sign v * power) (signed sign t * power) := by
  refine Within.mul_right ?_ power
  cases sign with
  | false => exact_mod_cast within
  | true =>
    unfold Within at *
    push_cast [signed_true]
    rwa [neg_sub_neg, abs_sub_comm, abs_neg]

theorem error_small : compound (1 / guarded) scaled < 1 / 2 ^ 57 := by
  unfold scaled half compound guarded
  norm_num

theorem close_of_fits (nonzero : n.value ≠ 0) (safe : Safe n.digits 0)
    (fits : InInt n.decimalExponent) (inside : |(scanLiteral n.text).exp| < 560) :
    |value (fltStr2flt n.text).1 - n.value| < |n.value| / 2 ^ 57 := by
  have scan := scanned n
  have gathered := gather_gathered (by decide) safe
  have converted := fltStr2flt_within scan (kept_pos gathered (number_ne_zero nonzero)) inside
  have power : (scanLiteral n.text).exp = (gather n.digits 0).2 + (n.power - n.places) := by
    rw [scan.exp, gathered.count, add_sub_assoc']
    exact (toInt_eq_iff _).mpr fits
  have digits := signed_within (kept_within gathered) (n.sign == some true) (10 ^ (n.power - n.places))
  have whole : signed (n.sign == some true) ((gather n.digits 0).1 * 10 ^ (gather n.digits 0).2 : Nat) *
      (10 : ℚ) ^ (n.power - n.places) =
      signed (n.sign == some true) (gather n.digits 0).1 * 10 ^ (scanLiteral n.text).exp := by
    rw [power, zpow_add₀ (by norm_num), zpow_natCast]
    cases n.sign == some true <;> push_cast [signed_true, signed_false] <;> ring
  rw [whole] at digits
  have total := digits.trans (by unfold scaled half compound; norm_num) converted
  have size : 0 < |n.value| := abs_pos.mpr nonzero
  calc |value (fltStr2flt n.text).1 - n.value| ≤ compound (1 / guarded) scaled * |n.value| := total
    _ < 1 / 2 ^ 57 * |n.value| := mul_lt_mul_of_pos_right error_small size
    _ = |n.value| / 2 ^ 57 := by rw [one_div, inv_mul_eq_div]

theorem hundredfold {low high : Int} (apart : low + 2 ≤ high) : 100 * (10 : ℚ) ^ low ≤ 10 ^ high := by
  calc 100 * (10 : ℚ) ^ low = 10 ^ (low + 2) := by
        rw [zpow_add₀ (by norm_num)]
        norm_num [mul_comm]
    _ ≤ 10 ^ high := zpow_le_zpow_right₀ (by norm_num) apart

theorem decimal_size (gathered : Gathered n.digits 0 m skipped) :
    (m : ℚ) * 10 ^ n.decimalExponent ≤ |n.value| ∧
      |n.value| ≤ (m + 1) * 10 ^ n.decimalExponent := by
  obtain ⟨low, high, -, count⟩ := gathered
  have exponent : (10 : ℚ) ^ n.decimalExponent = 10 ^ skipped * 10 ^ (n.power - n.places) := by
    rw [← zpow_natCast, ← zpow_add₀ (by norm_num), count, ← add_sub_assoc]
    rfl
  rw [abs_value, exponent, ← mul_assoc, ← mul_assoc]
  constructor
  · exact mul_le_mul_of_nonneg_right (by exact_mod_cast low) (by positivity)
  · exact mul_le_mul_of_nonneg_right (by exact_mod_cast high.le) (by positivity)

/-- Another power of ten gives a number of another size. -/
theorem not_close_of_outside (nonzero : n.value ≠ 0) (safe : Safe n.digits 0)
    (outside : ¬ InInt n.decimalExponent) (inside : |(scanLiteral n.text).exp| < 560) :
    ¬ |value (fltStr2flt n.text).1 - n.value| < |n.value| / 2 ^ 57 := by
  have scan := scanned n
  have gathered := gather_gathered (by decide) safe
  have positive := kept_pos gathered (number_ne_zero nonzero)
  have converted := fltStr2flt_within scan positive inside
  obtain ⟨lower, upper⟩ := decimal_size gathered
  have one : (1 : ℚ) ≤ (gather n.digits 0).1 := by exact_mod_cast positive
  have exponent : (scanLiteral n.text).exp = toInt n.decimalExponent := by
    rw [scan.exp, gathered.count]
    rfl
  have magnitude : |(signed (n.sign == some true) (gather n.digits 0).1 : ℚ) *
      10 ^ (scanLiteral n.text).exp| = (gather n.digits 0).1 * 10 ^ (toInt n.decimalExponent) := by
    rw [abs_mul, ← Int.cast_abs, abs_signed, Int.cast_natCast, abs_of_pos (by positivity), exponent]
  refine not_lt.mpr (le_trans ?_ (converted.far (by unfold scaled half compound; norm_num) ?_))
  · have nonneg := abs_nonneg n.value
    exact div_le_div_of_nonneg_left nonneg (by norm_num) (by norm_num)
  · rw [magnitude]
    rcases toInt_apart outside with above | below
    · refine Or.inr ?_
      have step := hundredfold above
      nlinarith
    · refine Or.inl ?_
      have step := hundredfold below
      nlinarith

/-- When the conversion of a literal is accurate. -/
theorem fltStr2flt_accurate_iff (n : Numeral) (nonzero : n.value ≠ 0)
    (inside : |(scanLiteral n.text).exp| < 560) :
    Accurate n ↔ Safe n.digits 0 ∧ InInt n.decimalExponent := by
  have carries : literalCarries n.text = false ↔ Safe n.digits 0 := by
    rw [(scanned n).carries]
    exact overflows_iff (by decide)
  constructor
  · rintro ⟨close, noCarry⟩
    have safe := carries.mp noCarry
    refine ⟨safe, ?_⟩
    by_contra outside
    exact not_close_of_outside nonzero safe outside inside close
  · rintro ⟨safe, fits⟩
    exact ⟨close_of_fits nonzero safe fits inside, carries.mpr safe⟩

theorem radix_ne_zero : NeZero 10 := ⟨by decide⟩

attribute [local instance] radix_ne_zero

def small : Numeral := ⟨some true, [2], some [5], some ⟨false, some true, [3]⟩⟩

/-- A literal with a sign, a fraction and an exponent. -/
theorem small_accurate : Accurate small :=
  (fltStr2flt_accurate_iff small (by norm_num [Numeral.value, small, Numeral.digits, continued,
    Numeral.power, Numeral.places, signed_true]) (by decide)).mpr (by decide)

/-- `18446744080000000000`: without its last digit it is below the guard, with
it it is beyond 64 bits. -/
def overflowing : Numeral :=
  ⟨none, [1, 8, 4, 4, 6, 7, 4, 4, 0, 8, 0, 0, 0, 0, 0, 0, 0, 0, 0, 0], none, none⟩

theorem overflowing_result :
    fltStr2flt overflowing.text = (⟨false, 32, ⟨0xBB785000, 0⟩⟩, .ok) := by
  decide +kernel

/-- Its value is lost, although its exponent is small. -/
theorem overflowing_not_accurate :
    overflowing.value ≠ 0 ∧ |(scanLiteral overflowing.text).exp| < 560 ∧
      ¬ |value (fltStr2flt overflowing.text).1 - overflowing.value| <
        |overflowing.value| / 2 ^ 57 ∧
      literalCarries overflowing.text = true := by
  have exact : overflowing.value = 18446744080000000000 := by
    norm_num [Numeral.value, overflowing, Numeral.digits, continued, Numeral.power,
      Numeral.places, signed_false]
  have result : value (fltStr2flt overflowing.text).1 = 6290448384 := by
    have mantissa : FltMantissa.value ⟨0xBB785000, 0⟩ = 3145224192 * 2 ^ 32 := by decide
    rw [overflowing_result, value_mk, mantissa]
    norm_num [unit, signed_false]
  rw [exact, result]
  exact ⟨by norm_num, by decide +kernel, by norm_num, by decide +kernel⟩

end AckFormal.Flt.Literals
