import AckFormal.Fp.Arithmetic

/-!
# Multiplication of extended numbers

`mul_ext` forms the 128-bit product with the loops of `flt_mul`, keeps its upper
64 bits and rounds on the first bit it leaves out.
-/

namespace AckFormal.Fp.Multiplication

open Flt.Mantissa Flt.Number Flt.Operations Extended Fp.Compact Arithmetic Lib.Digits

def EXT_MAX : Int := 16383

def EXT_MIN : Int := -16382

def mulRange (e1 : EXTEND) : EXTEND × List Trap :=
  if e1.exp ≥ EXT_MAX then ({ e1 with exp := EXT_MAX, mantissa := ⟨0, 0⟩ }, [.EFOVFL])
  else if e1.exp < EXT_MIN then ({ e1 with exp := EXT_MIN, mantissa := ⟨0, 0⟩ }, [.EFUNFL])
  else (e1, [])

/-- `mul_ext` up to these checks; `mulCombine` has no use for the sign. -/
def mulUnchecked (e1 e2 : EXTEND) : EXTEND :=
  let exp := toShort (e1.exp + (e2.exp + 1))
  let result := mulDigits e1.mantissa e2.mantissa
  let total := if result 0 &&& 0x8000 = 0 then mulCombine false (toShort (exp - 1)) (mulShift result)
    else mulCombine false exp result
  ⟨e1.sign ^^^ e2.sign, total.exp, total.mantissa⟩

def mulExt (e1 e2 : EXTEND) : EXTEND × List Trap :=
  mulRange (mulUnchecked e1 e2)

/-- What `mulCombine` makes of the upper digits `T` of a product, for the number
`w` of mantissa units they stand for. -/
theorem mulCombine_near {result : Nat → Nat} {T : Nat} (w : ℚ) (exp : Int)
    (digits : ∀ index, result index < 2 ^ 16) (upper : digitsValue (2 ^ 16) result 0 5 = T)
    (low : (T : ℚ) ≤ w * 2 ^ 16) (high : w * 2 ^ 16 < T + 2) (large : 2 ^ 63 ≤ w)
    (bottom : -16000 ≤ exp) (top : exp + 1 ≤ 16000) (sign : UInt16) :
    Approximates ⟨sign, (mulCombine false exp result).exp, (mulCombine false exp result).mantissa⟩
      (EXTEND.signed sign (w * (2 : ℚ) ^ (exp - 63))) := by
  obtain ⟨-, fits, carries⟩ := mulCombine_spec false exp result digits
  rw [upper] at fits carries
  generalize mulCombine false exp result = total at fits carries ⊢
  have up : (T : ℚ) + 2 ^ 15 ≤ ((T + 2 ^ 15) / 2 ^ 16 : Nat) * 2 ^ 16 + 65535 := by
    have natural : T + 2 ^ 15 ≤ (T + 2 ^ 15) / 2 ^ 16 * 2 ^ 16 + 65535 := by omega
    exact_mod_cast natural
  have down : (((T + 2 ^ 15) / 2 ^ 16 : Nat) : ℚ) * 2 ^ 16 ≤ T + 2 ^ 15 := by
    exact_mod_cast Nat.div_mul_le_self (T + 2 ^ 15) (2 ^ 16)
  have reach : 2 ^ 63 ≤ (T + 2 ^ 15) / 2 ^ 16 := by
    have bound : (2 : ℚ) ^ 79 < T + 2 := by linarith
    have natural : 2 ^ 79 < T + 2 := by exact_mod_cast bound
    omega
  rcases Nat.lt_or_ge ((T + 2 ^ 15) / 2 ^ 16) (2 ^ 64) with small | carry
  · obtain ⟨mantissa, exponent⟩ := fits small
    refine ⟨?_, ?_, ?_, w, ?_, ?_⟩
    · change 2 ^ 63 ≤ _
      rw [mantissa]
      exact reach
    · change _ ≤ total.exp
      omega
    · change total.exp ≤ _
      omega
    · dsimp only
      rw [mantissa]
      exact ⟨by linarith, by linarith, Or.inl large⟩
    · rw [EXTEND.unit, exponent]
  · -- rounding up to the next power of two
    obtain ⟨mantissa, exponent⟩ := carries carry
    rw [toShort_of_range (by omega) (by omega)] at exponent
    have least : 2 ^ 80 ≤ T + 2 ^ 15 := by omega
    have most : T < 2 ^ 80 := by
      have bound := digitsValue_lt 0 5 digits
      omega
    have leastCast : (2 : ℚ) ^ 80 ≤ T + 2 ^ 15 := by exact_mod_cast least
    have mostCast : (T : ℚ) < 2 ^ 80 := by exact_mod_cast most
    refine ⟨?_, ?_, ?_, w / 2, ?_, ?_⟩
    · change 2 ^ 63 ≤ _
      rw [mantissa]
    · change _ ≤ total.exp
      omega
    · change total.exp ≤ _
      omega
    · dsimp only
      rw [mantissa]
      exact ⟨by push_cast; linarith, by push_cast; linarith, Or.inr rfl⟩
    · rw [EXTEND.unit, exponent]
      rw [show exp + 1 - 63 = exp - 63 + 1 by ring, zpow_add_one₀ (by norm_num)]
      ring_nf

variable {e1 e2 : EXTEND} {v1 v2 : ℚ}

/-- The unchecked product approximates the exact one. -/
theorem mulUnchecked_approximates (first : Unpacked e1 v1) (second : Unpacked e2 v2)
    (nonzero1 : e1.mantissa ≠ FltMantissa.zero) (nonzero2 : e2.mantissa ≠ FltMantissa.zero) :
    Approximates (mulUnchecked e1 e2) (v1 * v2) := by
  obtain ⟨normal1, low1, high1⟩ := first.range nonzero1
  obtain ⟨normal2, low2, high2⟩ := second.range nonzero2
  obtain ⟨digits, product⟩ := mulDigits_value e1.mantissa e2.mantissa
  have large : 2 ^ 63 * 2 ^ 63 ≤ e1.mantissa.value * e2.mantissa.value :=
    Nat.mul_le_mul normal1 normal2
  have exponent : toShort (e1.exp + (e2.exp + 1)) = e1.exp + e2.exp + 1 := by
    rw [toShort_of_range (by omega) (by omega)]
    ring
  have less : toShort (e1.exp + e2.exp + 1 - 1) = e1.exp + e2.exp := by
    rw [toShort_of_range (by omega) (by omega)]
    ring
  -- the sign and the exponents of the exact product
  have value : v1 * v2 = EXTEND.signed (e1.sign ^^^ e2.sign)
      ((e1.mantissa.value * e2.mantissa.value : Nat) * (2 : ℚ) ^ (e1.exp + e2.exp - 126)) := by
    rw [← first.value, ← second.value, EXTEND.value, EXTEND.value, EXTEND.unit, EXTEND.unit,
      show e1.exp + e2.exp - 126 = (e1.exp - 63) + (e2.exp - 63) by ring,
      zpow_add₀ (by norm_num)]
    rcases first.sign with sign1 | sign1 <;> rcases second.sign with sign2 | sign2 <;>
      simp [EXTEND.signed, sign1, sign2] <;> ring
  unfold mulUnchecked
  dsimp only
  rw [exponent, less, value]
  generalize mulDigits e1.mantissa e2.mantissa = result at digits product ⊢
  generalize e1.mantissa.value * e2.mantissa.value = P at product large ⊢
  have width : (2 ^ 16) ^ 3 = 2 ^ 48 := by norm_num
  have tail := digitsValue_lt 5 3 digits
  rw [digitsValue_add (2 ^ 16) result 0 5 3, Nat.zero_add, width] at product
  generalize upper : digitsValue (2 ^ 16) result 0 5 = T at product
  have lowCast : (T : ℚ) * 2 ^ 48 ≤ P := by
    have natural : T * 2 ^ 48 ≤ P := by
      rw [← product]
      exact Nat.le_add_right _ _
    exact_mod_cast natural
  have highCast : (P : ℚ) < (T + 1) * 2 ^ 48 := by
    have natural : P < (T + 1) * 2 ^ 48 := by
      rw [← product, Nat.add_mul, Nat.one_mul]
      exact Nat.add_lt_add_left tail _
    exact_mod_cast natural
  have head : T = result 0 * (2 ^ 16) ^ 4 + digitsValue (2 ^ 16) result 1 4 := by
    rw [← upper]
    exact digitsValue_head (2 ^ 16) result 0 4
  by_cases clear : result 0 &&& 0x8000 = 0
  · rw [if_pos clear]
    rw [digit_top (digits 0)] at clear
    have doubled := mulShift_value result digits clear
    rw [upper] at doubled
    have largeCast : (2 : ℚ) ^ 126 ≤ P := by exact_mod_cast large
    have result := mulCombine_near (P / 2 ^ 63) (e1.exp + e2.exp)
      (mulShift_lt result digits) doubled (by push_cast; linarith) (by push_cast; linarith)
      (by linarith) (by omega) (by omega) (e1.sign ^^^ e2.sign)
    have number : (P : ℚ) / 2 ^ 63 * (2 : ℚ) ^ (e1.exp + e2.exp - 63) =
        P * (2 : ℚ) ^ (e1.exp + e2.exp - 126) := by
      rw [show e1.exp + e2.exp - 63 = e1.exp + e2.exp - 126 + (63 : Nat) by push_cast; ring,
        zpow_add₀ (by norm_num), zpow_natCast]
      field_simp
    rw [number] at result
    exact result
  · rw [if_neg clear]
    rw [digit_top (digits 0)] at clear
    have topDigit : 2 ^ 79 ≤ T := by omega
    have topCast : (2 : ℚ) ^ 79 ≤ T := by exact_mod_cast topDigit
    have result := mulCombine_near (P / 2 ^ 64) (e1.exp + e2.exp + 1)
      digits upper (by linarith) (by linarith) (by linarith) (by omega) (by omega)
      (e1.sign ^^^ e2.sign)
    have number : (P : ℚ) / 2 ^ 64 * (2 : ℚ) ^ (e1.exp + e2.exp + 1 - 63) =
        P * (2 : ℚ) ^ (e1.exp + e2.exp - 126) := by
      rw [show e1.exp + e2.exp + 1 - 63 = e1.exp + e2.exp - 126 + (64 : Nat) by push_cast; ring,
        zpow_add₀ (by norm_num), zpow_natCast]
      field_simp
    rw [number] at result
    exact result

theorem mulUnchecked_eq (e1 e2 : EXTEND) :
    mulUnchecked e1 e2 = ⟨e1.sign ^^^ e2.sign,
      (fltMulUnchecked ⟨false, e1.exp, e1.mantissa⟩ ⟨false, e2.exp, e2.mantissa⟩).exp,
      (fltMulUnchecked ⟨false, e1.exp, e1.mantissa⟩ ⟨false, e2.exp, e2.mantissa⟩).mantissa⟩ := by
  unfold mulUnchecked fltMulUnchecked
  rw [← add_assoc]
  rfl

theorem mulRange_inside {e : EXTEND} (low : -16000 ≤ e.exp) (high : e.exp ≤ 16000) :
    mulRange e = (e, []) := by
  unfold mulRange EXT_MAX EXT_MIN
  rw [if_neg (by omega), if_neg (by omega)]

theorem mulExt_zero (first : Unpacked e1 v1) (second : Unpacked e2 v2)
    (empty : e1.mantissa = FltMantissa.zero ∨ e2.mantissa = FltMantissa.zero) :
    (mulExt e1 e2).1.mantissa = FltMantissa.zero ∧ v1 * v2 = 0 ∧ (mulExt e1 e2).2 = [] := by
  have low1 := first.low
  have low2 := second.low
  have high1 := first.high
  have high2 := second.high
  have zero := @fltMulUnchecked_zero ⟨false, e1.exp, e1.mantissa⟩ ⟨false, e2.exp, e2.mantissa⟩ empty
  have exponent : toShort (e1.exp + e2.exp) = e1.exp + e2.exp :=
    toShort_of_range (by omega) (by omega)
  rw [mulExt, mulUnchecked_eq, zero, mulRange_inside (by dsimp only; omega) (by dsimp only; omega)]
  refine ⟨rfl, ?_, rfl⟩
  rcases empty with empty | empty
  · rw [first.eq_zero empty, zero_mul]
  · rw [second.eq_zero empty, mul_zero]

theorem mulExt_delivers (first : Unpacked e1 v1) (second : Unpacked e2 v2) :
    Delivers (mulExt e1 e2).1 (v1 * v2) ∧ (mulExt e1 e2).2 = [] := by
  by_cases empty : e1.mantissa = FltMantissa.zero ∨ e2.mantissa = FltMantissa.zero
  · obtain ⟨mantissa, product, quiet⟩ := mulExt_zero first second empty
    exact ⟨Or.inl ⟨mantissa, product⟩, quiet⟩
  · obtain ⟨nonzero1, nonzero2⟩ := not_or.mp empty
    have approximates := mulUnchecked_approximates first second nonzero1 nonzero2
    rw [mulExt, mulRange_inside approximates.low approximates.high]
    exact ⟨Or.inr approximates, rfl⟩

end AckFormal.Fp.Multiplication
