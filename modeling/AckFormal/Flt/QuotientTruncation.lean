import AckFormal.Flt.Quotients

/-!
# The truncation of quotients

`flt_div` computes 64 bits of the quotient of the mantissas, the first of them
in front of the point.  When the first mantissa is the smaller one that bit is
zero; the normaliser then moves the quotient up, and the last bit of the result
is not a bit of the quotient.
-/

namespace AckFormal.Flt.QuotientTruncation

open Mantissa Number FltArith Division DivisionDigits Products Quotients DivisionBounds
open Lib.Rounding

/-- `flt_div` of numbers that are not zero, up to the range check. -/
def fltDivUnchecked (e1 e2 : FltArith) : FltArith :=
  fltNrm ⟨e1.sign ^^ e2.sign, toShort (e1.exp - e2.exp), quotientWords e1 e2⟩

theorem normalized_ne_zero {m : FltMantissa} (normal : m.Normalized) : m ≠ FltMantissa.zero := by
  rintro rfl
  exact absurd normal (by decide)

variable {e1 e2 : FltArith}

theorem fltDiv_eq (normal1 : e1.mantissa.Normalized)
    (normal2 : e2.mantissa.Normalized) : fltDiv e1 e2 = fltChk (fltDivUnchecked e1 e2) .ok := by
  rw [fltDiv, if_neg (mt FltMantissa.or_eq_zero.mp (normalized_ne_zero normal2)),
    if_neg (mt FltMantissa.or_eq_zero.mp (normalized_ne_zero normal1))]
  rfl

theorem quotient_bounds {a b : FltMantissa} (normalA : a.Normalized) (normalB : b.Normalized) :
    (a.value < b.value → 2 ^ 62 ≤ a.value * 2 ^ 63 / b.value ∧ a.value * 2 ^ 63 / b.value < 2 ^ 63) ∧
    (b.value ≤ a.value → 2 ^ 63 ≤ a.value * 2 ^ 63 / b.value ∧ a.value * 2 ^ 63 / b.value < 2 ^ 64) := by
  have aBound := a.value_lt
  have bBound := b.value_lt
  unfold FltMantissa.Normalized at normalA normalB
  have positive : 0 < b.value := lt_of_lt_of_le (by decide) normalB
  refine ⟨fun less => ⟨?_, ?_⟩, fun more => ⟨?_, ?_⟩⟩
  · rw [Nat.le_div_iff_mul_le positive]
    omega
  · rw [Nat.div_lt_iff_lt_mul positive]
    omega
  · rw [Nat.le_div_iff_mul_le positive]
    omega
  · rw [Nat.div_lt_iff_lt_mul positive]
    omega

theorem shift_unique {q s k : Nat} (most : k ≤ 63) (low : 2 ^ (63 - k) ≤ q) (high : q < 2 ^ (64 - k))
    (normal : 2 ^ 63 ≤ q * 2 ^ s) (top : q * 2 ^ s < 2 ^ 64) : s = k := by
  have above : 2 ^ (63 - k + s) < 2 ^ 64 := by
    rw [pow_add]
    exact lt_of_le_of_lt (Nat.mul_le_mul_right _ low) top
  have below : 2 ^ 63 < 2 ^ (64 - k + s) := by
    rw [pow_add]
    exact lt_of_le_of_lt normal (Nat.mul_lt_mul_of_pos_right high (Nat.two_pow_pos s))
  rw [Nat.pow_lt_pow_iff_right (by decide)] at above below
  omega

/-- What the normaliser makes of the quotient: it is moved up by one bit when the
first mantissa is the smaller one. -/
theorem fltDivUnchecked_spec (normal1 : e1.mantissa.Normalized)
    (normal2 : e2.mantissa.Normalized) (low : -32767 ≤ e1.exp - e2.exp)
    (high : e1.exp - e2.exp < 32768) :
    ∃ s : Nat, s = (if e1.mantissa.value < e2.mantissa.value then 1 else 0) ∧
      (fltDivUnchecked e1 e2).sign = (e1.sign ^^ e2.sign) ∧
      (fltDivUnchecked e1 e2).mantissa.Normalized ∧
      (fltDivUnchecked e1 e2).mantissa.value =
        e1.mantissa.value * 2 ^ 63 / e2.mantissa.value * 2 ^ s ∧
      (fltDivUnchecked e1 e2).exp = e1.exp - e2.exp - s := by
  have value := quotientWords_value e1 normal2
  obtain ⟨short, long⟩ := quotient_bounds normal1 normal2
  have nonzero : quotientWords e1 e2 ≠ FltMantissa.zero := by
    intro zero
    rw [zero, FltMantissa.value_zero] at value
    rcases Nat.lt_or_ge e1.mantissa.value e2.mantissa.value with less | more
    · exact absurd (short less).1 (by rw [← value]; decide)
    · exact absurd (long more).1 (by rw [← value]; decide)
  have spec := @fltNrm_spec ⟨e1.sign ^^ e2.sign, toShort (e1.exp - e2.exp), quotientWords e1 e2⟩
    nonzero
  change ∃ s : Nat, s ≤ 63 ∧
    (fltDivUnchecked e1 e2).mantissa.value = (quotientWords e1 e2).value * 2 ^ s ∧
    (fltDivUnchecked e1 e2).mantissa.Normalized ∧
    (fltDivUnchecked e1 e2).sign = (e1.sign ^^ e2.sign) ∧
    (fltDivUnchecked e1 e2).exp = if s = 0 then toShort (e1.exp - e2.exp)
      else toShort (toShort (e1.exp - e2.exp) - s) at spec
  obtain ⟨s, -, shifted, normal, sign, exponent⟩ := spec
  rw [value] at shifted
  have top := (fltDivUnchecked e1 e2).mantissa.value_lt
  have least := normal
  unfold FltMantissa.Normalized at least
  rw [shifted] at top least
  have moved : s = if e1.mantissa.value < e2.mantissa.value then 1 else 0 := by
    split
    next less => exact shift_unique (by decide) (short less).1 (short less).2 least top
    next more =>
      have bounds := long (not_lt.mp more)
      exact shift_unique (by decide) bounds.1 bounds.2 least top
  have few : s ≤ 1 := by
    rw [moved]
    split <;> decide
  refine ⟨s, moved, sign, normal, shifted, ?_⟩
  rw [exponent, toShort_of_range (by omega : -32768 ≤ e1.exp - e2.exp) high]
  split
  next zero =>
    omega
  next => exact toShort_of_range (by omega) (by omega)

theorem magnitude_div (e1 e2 : FltArith) :
    magnitude e1 / magnitude e2 =
      ((e1.mantissa.value * 2 ^ 63 : Nat) : ℚ) / (e2.mantissa.value : Nat) *
        2 ^ (e1.exp - e2.exp - 63) := by
  have two : (2 : ℚ) ≠ 0 := by norm_num
  unfold magnitude
  rw [show e1.exp - 63 = (e1.exp - e2.exp - 63) + (e2.exp - 63) + 63 by ring,
    zpow_add₀ two, zpow_add₀ two]
  push_cast
  field_simp

/-- In units of its last digit the quotient is a number of 63 or 64 bits. -/
theorem magnitude_div_bounds (normal1 : e1.mantissa.Normalized)
    (normal2 : e2.mantissa.Normalized) {precision : Nat}
    (width : precision = if e1.mantissa.value < e2.mantissa.value then 63 else 64) :
    magnitude e1 / magnitude e2 < 2 ^ (precision : Int) * (2 : ℚ) ^ (e1.exp - e2.exp - 63) ∧
      2 ^ ((precision : Int) - 1) * (2 : ℚ) ^ (e1.exp - e2.exp - 63) ≤
        magnitude e1 / magnitude e2 := by
  have bound1 := e1.mantissa.value_lt
  have bound2 := e2.mantissa.value_lt
  unfold FltMantissa.Normalized at normal1 normal2
  have positive : (0 : ℚ) < (e2.mantissa.value : Nat) := by
    exact_mod_cast lt_of_lt_of_le (by decide : 0 < 2 ^ 63) normal2
  have quantum : (0 : ℚ) < 2 ^ (e1.exp - e2.exp - 63) := by positivity
  have previous : (2 : ℚ) ^ ((precision : Int) - 1) = (2 ^ (precision - 1) : Nat) := by
    rw [show (precision : Int) - 1 = ((precision - 1 : Nat) : Int) by
      rw [width]
      split <;> rfl, zpow_natCast]
    push_cast
    rfl
  have whole : (2 : ℚ) ^ (precision : Int) = (2 ^ precision : Nat) := by
    push_cast
    rfl
  have upper : e1.mantissa.value * 2 ^ 63 < 2 ^ precision * e2.mantissa.value := by
    rw [width]
    split <;> omega
  have lower : 2 ^ (precision - 1) * e2.mantissa.value ≤ e1.mantissa.value * 2 ^ 63 := by
    rw [width]
    split <;> omega
  rw [magnitude_div, whole, previous]
  constructor
  · refine mul_lt_mul_of_pos_right ?_ quantum
    rw [div_lt_iff₀ positive]
    exact_mod_cast upper
  · refine mul_le_mul_of_nonneg_right ?_ quantum.le
    rw [le_div_iff₀ positive]
    exact_mod_cast lower

/-- The result, in units of the last bit the loop computes. -/
theorem magnitude_fltDivUnchecked (normal1 : e1.mantissa.Normalized)
    (normal2 : e2.mantissa.Normalized) (low : -32767 ≤ e1.exp - e2.exp)
    (high : e1.exp - e2.exp < 32768) :
    magnitude (fltDivUnchecked e1 e2) =
      ⌊magnitude e1 / magnitude e2 / 2 ^ (e1.exp - e2.exp - 63)⌋ *
        (2 : ℚ) ^ (e1.exp - e2.exp - 63) := by
  obtain ⟨s, -, -, -, mantissa, exponent⟩ := fltDivUnchecked_spec normal1 normal2 low high
  have two : (2 : ℚ) ≠ 0 := by norm_num
  have quotient : magnitude e1 / magnitude e2 / 2 ^ (e1.exp - e2.exp - 63) =
      ((e1.mantissa.value * 2 ^ 63 : Nat) : ℚ) / (e2.mantissa.value : Nat) := by
    rw [magnitude_div, mul_div_cancel_right₀ _ (zpow_ne_zero _ two)]
  have floored : ⌊((e1.mantissa.value * 2 ^ 63 : Nat) : ℚ) / (e2.mantissa.value : Nat)⌋ =
      ((e1.mantissa.value * 2 ^ 63 / e2.mantissa.value : Nat) : Int) := by
    rw [Rat.floor_natCast_div_natCast]
    exact (Int.natCast_ediv _ _).symm
  rw [quotient, floored]
  unfold magnitude
  rw [mantissa, exponent, show e1.exp - e2.exp - 63 = (e1.exp - e2.exp - s - 63) + s by ring,
    zpow_add₀ two, zpow_natCast, Int.cast_natCast, Nat.cast_mul, Nat.cast_pow]
  ring

/-- `flt_div` by digits: each turn divides the window exactly and leaves a
remainder below the divisor, no access leaves an array, and before the range
check the result is the exact quotient, truncated to 64 significant bits, or to
63 when the first mantissa is the smaller one. -/
theorem fltDiv_truncates (e1 e2 : FltArith) (normal1 : e1.mantissa.Normalized)
    (normal2 : e2.mantissa.Normalized) (low1 : extMin < e1.exp) (high1 : e1.exp < extMax)
    (low2 : extMin < e2.exp) (high2 : e2.exp < extMax) :
    (∀ j < 4, digit e1 e2 j = window (running e1 e2 j) j / e2.mantissa.value ∧
      digit e1 e2 j < 2 ^ 16 ∧
      window (running e1 e2 (j + 1)) j = window (running e1 e2 j) j % e2.mantissa.value ∧
      window (running e1 e2 (j + 1)) j < e2.mantissa.value) ∧
    Lib.Digits.digitsValue (2 ^ 16) (digit e1 e2) 0 4 =
      e1.mantissa.value * 2 ^ 63 / e2.mantissa.value ∧
    quotientWordsAt e1 e2 = some (quotientWords e1 e2) ∧
    fltDiv e1 e2 = fltChk (fltDivUnchecked e1 e2) .ok ∧
    (fltDivUnchecked e1 e2).sign = (e1.sign ^^ e2.sign) ∧
    (fltDivUnchecked e1 e2).mantissa.Normalized ∧
    Truncated (Significant (if e1.mantissa.value < e2.mantissa.value then 63 else 64))
      (magnitude e1 / magnitude e2) (magnitude (fltDivUnchecked e1 e2)) := by
  unfold extMin at low1 low2
  unfold extMax at high1 high2
  have low : -32767 ≤ e1.exp - e2.exp := by omega
  have high : e1.exp - e2.exp < 32768 := by omega
  obtain ⟨s, -, sign, normal, -, -⟩ := fltDivUnchecked_spec normal1 normal2 low high
  refine ⟨fun j _ => ?_, digits_quotient e1 normal2, quotientWordsAt_inside e1 normal2,
    fltDiv_eq normal1 normal2, sign, normal, ?_⟩
  · obtain ⟨quotient, left, -⟩ := (divided e1 normal2 j).turn normal2
    refine ⟨quotient, digit_lt e1 normal2 j, left, ?_⟩
    rw [left]
    exact Nat.mod_lt _ (lt_of_lt_of_le (by decide) normal2)
  · rw [magnitude_fltDivUnchecked normal1 normal2 low high]
    obtain ⟨below, above⟩ := magnitude_div_bounds normal1 normal2 rfl
    refine floor_truncated ?_ below above
    split <;> decide

/-- One divided by the largest divisor with a single digit. -/
theorem short_divisor_truncates :
    Truncated (Significant 63)
      (magnitude ⟨false, -3, ⟨0x80000000, 0⟩⟩ / magnitude ⟨true, 5, ⟨0xFFFF0000, 0⟩⟩)
      (magnitude (fltDivUnchecked ⟨false, -3, ⟨0x80000000, 0⟩⟩ ⟨true, 5, ⟨0xFFFF0000, 0⟩⟩)) := by
  have truncated := (fltDiv_truncates ⟨false, -3, ⟨0x80000000, 0⟩⟩ ⟨true, 5, ⟨0xFFFF0000, 0⟩⟩
    (by decide) (by decide) (by decide) (by decide) (by decide) (by decide)).2.2.2.2.2.2
  rwa [if_pos (by decide)] at truncated

def four : FltArith := ⟨false, 2, ⟨0x80000000, 0⟩⟩

def seven : FltArith := ⟨false, 2, ⟨0xE0000000, 0⟩⟩

theorem four_div_seven : magnitude four / magnitude seven = 4 / 7 := by
  have dividend : four.mantissa.value = 2 ^ 63 := by decide
  have divisor : seven.mantissa.value = 7 * 2 ^ 61 := by decide
  have exponent : four.exp = 2 ∧ seven.exp = 2 := ⟨rfl, rfl⟩
  unfold magnitude
  rw [dividend, divisor, exponent.1, exponent.2]
  norm_num

theorem four_div_seven_result :
    magnitude (fltDivUnchecked four seven) = 0x4924924924924924 * (2 : ℚ) ^ (-63 : Int) := by
  have floored : ⌊(4 / 7 : ℚ) / 2 ^ (-63 : Int)⌋ = 0x4924924924924924 := by
    norm_num
  have exponent : four.exp - seven.exp - 63 = -63 := rfl
  rw [magnitude_fltDivUnchecked (by decide) (by decide) (by decide) (by decide), four_div_seven,
    exponent, floored]
  norm_num

/-- Four sevenths have 64 significant bits of which the last is set; the result
of the division has it clear. -/
theorem four_sevenths_loses_bit :
    ¬ ∀ e1 e2 : FltArith, e1.mantissa.Normalized → e2.mantissa.Normalized →
      extMin < e1.exp → e1.exp < extMax → extMin < e2.exp → e2.exp < extMax →
      Truncated (Significant 64) (magnitude e1 / magnitude e2)
        (magnitude (fltDivUnchecked e1 e2)) := by
  intro truncates
  obtain ⟨-, -, greatest⟩ := truncates four seven (by decide) (by decide) (by decide) (by decide)
    (by decide) (by decide)
  rw [four_div_seven, four_div_seven_result] at greatest
  have above := greatest (0x9249249249249249 * (2 : ℚ) ^ (-64 : Int))
    ⟨0x9249249249249249, -64, by norm_num, by norm_num⟩ (by norm_num)
  norm_num at above

end AckFormal.Flt.QuotientTruncation
