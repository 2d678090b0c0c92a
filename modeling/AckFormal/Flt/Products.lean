import AckFormal.Flt.Operations
import AckFormal.Lib.Rounding

/-!
# The rounding of products

What `flt_mul` delivers to the range check: the product of the two numbers,
rounded to 64 significant bits, half up.  The values of `tmp` in the loops are
collected beside them, to say that none of them leaves a 32-bit word.
-/

namespace AckFormal.Flt.Products

open Mantissa Number FltArith Operations Lib.Digits Lib.Rounding

def magnitude (e : FltArith) : ℚ := e.mantissa.value * (2 : ℚ) ^ (e.exp - 63)

/-! ## The partial sums -/

/-- The values computed in the loop over `j`, before any reduction: the sum with
the carry, the product, and their sum. -/
def innerSums (mpi : Nat) (mc : Nat → Nat) (pres : Nat) : Nat → (Nat → Nat) → Nat → List Nat
  | 0, _, _ => []
  | j + 1, result, k =>
    let sum := result (pres + j) + k
    let product := mpi * mc j
    let tmp := if mc j ≠ 0 then sum + product % 2 ^ 32 else sum
    sum :: product :: (sum + product) ::
      innerSums mpi mc pres j (Function.update result (pres + j) (tmp % 2 ^ 16))
        (tmp / 2 ^ 16 % 2 ^ 16)

def outerSums (mp mc : Nat → Nat) : Nat → (Nat → Nat) → List Nat
  | 0, _ => []
  | i + 1, result =>
    if mp i ≠ 0 then
      let (next, k) := mulInner (mp i) mc (i + 1) 4 result 0
      innerSums (mp i) mc (i + 1) 4 result 0 ++ outerSums mp mc i (Function.update next i k)
    else outerSums mp mc i result

def partialSums (a b : FltMantissa) : List Nat :=
  outerSums (fltSplit a) (fltSplit b) 4 fun _ => 0

theorem innerSums_lt {mpi : Nat} {mc : Nat → Nat} (pres : Nat) (factor : mpi < 2 ^ 16)
    (words : ∀ index, mc index < 2 ^ 16) (j : Nat) (result : Nat → Nat) (k : Nat)
    (digits : ∀ index, result index < 2 ^ 16) (carry : k < 2 ^ 16) :
    ∀ sum ∈ innerSums mpi mc pres j result k, sum < 2 ^ 32 := by
  induction j generalizing result k with
  | zero =>
    intro sum member
    exact absurd member List.not_mem_nil
  | succ j ih =>
    have product : mpi * mc j ≤ 65535 * 65535 :=
      Nat.mul_le_mul (by omega) (by have := words j; omega)
    have digit := digits (pres + j)
    rw [innerSums]
    simp only [List.forall_mem_cons]
    refine ⟨by omega, by omega, by omega, ih _ _ ?_ (Nat.mod_lt _ (by decide))⟩
    exact update_lt digits (Nat.mod_lt _ (by decide)) _

/-- The digits stay digits through every row, so every row starts from the same
bounds. -/
theorem outerSums_lt {mp mc : Nat → Nat} (multiplier : ∀ index, mp index < 2 ^ 16)
    (words : ∀ index, mc index < 2 ^ 16) (i : Nat) (result : Nat → Nat)
    (digits : ∀ index, result index < 2 ^ 16) :
    ∀ sum ∈ outerSums mp mc i result, sum < 2 ^ 32 := by
  induction i generalizing result with
  | zero =>
    intro sum member
    exact absurd member List.not_mem_nil
  | succ i ih =>
    rw [outerSums]
    split
    next nonzero =>
      rw [mulInner_eq_multiplyRow _ _ _ _ (multiplier i) words digits (by decide)]
      have digit := multiplyRow_digit_lt (mp i) mc (i + 1) 4 result 0
        (by decide : 0 < 2 ^ 16) digits
      have carry := multiplyRow_carry_lt mc (i + 1) 4 result 0 (multiplier i) words digits
        (by decide)
      have row := innerSums_lt (i + 1) (multiplier i) words 4 result 0 digits (by decide)
      have rest := ih _ (update_lt digit carry i)
      intro sum member
      rcases List.mem_append.mp member with here | later
      · exact row sum here
      · exact rest sum later
    next zero => exact ih result digits

theorem partialSums_lt (a b : FltMantissa) : ∀ sum ∈ partialSums a b, sum < 2 ^ 32 :=
  outerSums_lt (fltSplit_lt a) (fltSplit_lt b) 4 _ fun _ => by decide

/-! ## The rounded product -/

/-- The mantissa and the exponent together, in units of the last place before
the carry. -/
theorem mulCombine_rounded (sign : Bool) (exp : Int) (result : Nat → Nat)
    (digits : ∀ index, result index < 2 ^ 16)
    (most : (digitsValue (2 ^ 16) result 0 5 + 2 ^ 15) / 2 ^ 16 ≤ 2 ^ 64)
    (room : 2 ^ 64 ≤ (digitsValue (2 ^ 16) result 0 5 + 2 ^ 15) / 2 ^ 16 →
      toShort (exp + 1) = exp + 1) :
    magnitude (mulCombine sign exp result) =
      ((digitsValue (2 ^ 16) result 0 5 + 2 ^ 15) / 2 ^ 16 : Nat) * (2 : ℚ) ^ (exp - 63) := by
  obtain ⟨-, fits, carries⟩ := mulCombine_spec sign exp result digits
  generalize (digitsValue (2 ^ 16) result 0 5 + 2 ^ 15) / 2 ^ 16 = rounded at *
  unfold magnitude
  by_cases carry : 2 ^ 64 ≤ rounded
  · obtain ⟨mantissa, exponent⟩ := carries carry
    have full : rounded = 2 ^ 64 := by omega
    rw [mantissa, exponent, room carry, full, show exp + 1 - 63 = 1 + (exp - 63) by ring,
      zpow_add₀ (by norm_num : (2 : ℚ) ≠ 0)]
    ring
  · obtain ⟨mantissa, exponent⟩ := fits (not_le.mp carry)
    rw [mantissa, exponent]

/-- The digits of the product, in the two cases of its highest bit. -/
theorem mulDigits_top (a b : FltMantissa) :
    mulDigits a b 0 &&& 0x8000 = 0 ↔ a.value * b.value < 2 ^ 127 := by
  obtain ⟨digits, product⟩ := mulDigits_value a b
  have head := digitsValue_head (2 ^ 16) (mulDigits a b) 0 7
  have rest := digitsValue_lt 1 7 digits
  rw [product, Nat.zero_add] at head
  rw [digit_top (digits 0)]
  omega

theorem mulDigits_upper (a b : FltMantissa) :
    digitsValue (2 ^ 16) (mulDigits a b) 0 5 = a.value * b.value / 2 ^ 48 := by
  obtain ⟨digits, product⟩ := mulDigits_value a b
  have split := digitsValue_add (2 ^ 16) (mulDigits a b) 0 5 3
  have rest := digitsValue_lt (0 + 5) 3 digits
  rw [product] at split
  omega

theorem magnitude_mul (e1 e2 : FltArith) :
    magnitude e1 * magnitude e2 =
      (e1.mantissa.value * e2.mantissa.value : Nat) * (2 : ℚ) ^ (e1.exp + e2.exp - 126) := by
  have scale : e1.exp + e2.exp - 126 = (e1.exp - 63) + (e2.exp - 63) := by ring
  unfold magnitude
  rw [scale, zpow_add₀ (by norm_num : (2 : ℚ) ≠ 0)]
  push_cast
  ring

/-- The result is the product rounded in its own binade: the last place is worth
`2 ^ k` in units of the exact product. -/
theorem fltMulUnchecked_rounded {e1 e2 : FltArith} (low : -32766 ≤ e1.exp + e2.exp)
    (high : e1.exp + e2.exp ≤ 32766) :
    ∃ k : Nat, 0 < k ∧ (k = if e1.mantissa.value * e2.mantissa.value < 2 ^ 127 then 63 else 64) ∧
      magnitude (fltMulUnchecked e1 e2) =
        roundMultiple (magnitude e1 * magnitude e2) (2 ^ (e1.exp + e2.exp - 126 + k)) := by
  have bound : e1.mantissa.value * e2.mantissa.value ≤ (2 ^ 64 - 1) * (2 ^ 64 - 1) :=
    Nat.mul_le_mul (Nat.le_pred_of_lt e1.mantissa.value_lt) (Nat.le_pred_of_lt e2.mantissa.value_lt)
  obtain ⟨digits, -⟩ := mulDigits_value e1.mantissa e2.mantissa
  have top := mulDigits_top e1.mantissa e2.mantissa
  have upper := mulDigits_upper e1.mantissa e2.mantissa
  have bias : toShort (e1.exp + e2.exp + 1) = e1.exp + e2.exp + 1 :=
    toShort_of_range (by omega) (by omega)
  unfold fltMulUnchecked
  rw [bias]
  dsimp only
  rw [show e1.exp + e2.exp + 1 - 1 = e1.exp + e2.exp by ring,
    toShort_of_range (by omega : -32768 ≤ e1.exp + e2.exp) (by omega), magnitude_mul]
  generalize mulDigits e1.mantissa e2.mantissa = result at *
  generalize e1.mantissa.value * e2.mantissa.value = product at *
  by_cases short : product < 2 ^ 127
  · have shifted := mulShift_value result digits ((digit_top (digits 0)).mp (top.mpr short))
    refine ⟨63, by decide, by rw [if_pos short], ?_⟩
    rw [if_pos (top.mpr short), roundMultiple_dyadic _ 63 _ (by decide),
      mulCombine_rounded _ _ _ (mulShift_lt result digits)]
    · rw [shifted, upper]
      congr 2
      · omega
      · push_cast
        ring
    · rw [shifted, upper]
      omega
    · intro _
      exact toShort_of_range (by omega) (by omega)
  · refine ⟨64, by decide, by rw [if_neg short], ?_⟩
    rw [if_neg (mt top.mp short), roundMultiple_dyadic _ 64 _ (by decide),
      mulCombine_rounded _ _ _ digits]
    · rw [upper]
      congr 2
      · omega
      · push_cast
        ring
    · rw [upper]
      omega
    · -- a product of more than 127 bits is too far from the next power of two
      intro carry
      omega

theorem fltMulUnchecked_sign (e1 e2 : FltArith) :
    (fltMulUnchecked e1 e2).sign = (e1.sign ^^ e2.sign) := by
  obtain ⟨digits, -⟩ := mulDigits_value e1.mantissa e2.mantissa
  unfold fltMulUnchecked
  dsimp only
  split
  next => exact (mulCombine_spec _ _ _ (mulShift_lt _ digits)).1
  next => exact (mulCombine_spec _ _ _ digits).1

/-- `flt_mul` is correctly rounded: before the range check its result has the
sign of the product, a normalized mantissa, and is the number of 64 significant
bits nearest to the exact product, the larger one of two.  No value computed in
its loops leaves a 32-bit word. -/
theorem fltMul_correctly_rounded (e1 e2 : FltArith) (normal1 : e1.mantissa.Normalized)
    (normal2 : e2.mantissa.Normalized) (low1 : extMin < e1.exp) (high1 : e1.exp < extMax)
    (low2 : extMin < e2.exp) (high2 : e2.exp < extMax) :
    (fltMulUnchecked e1 e2).sign = (e1.sign ^^ e2.sign) ∧
      (fltMulUnchecked e1 e2).mantissa.Normalized ∧
      NearestUp (Significant 64) (magnitude e1 * magnitude e2)
        (magnitude (fltMulUnchecked e1 e2)) ∧
      ∀ sum ∈ partialSums e1.mantissa e2.mantissa, sum < 2 ^ 32 := by
  have most : e1.mantissa.value * e2.mantissa.value < 2 ^ 128 := by
    have bound : e1.mantissa.value * e2.mantissa.value ≤ (2 ^ 64 - 1) * (2 ^ 64 - 1) :=
      Nat.mul_le_mul (Nat.le_pred_of_lt e1.mantissa.value_lt)
        (Nat.le_pred_of_lt e2.mantissa.value_lt)
    omega
  have least : 2 ^ 126 ≤ e1.mantissa.value * e2.mantissa.value := by
    have bound : 2 ^ 63 * 2 ^ 63 ≤ e1.mantissa.value * e2.mantissa.value :=
      Nat.mul_le_mul normal1 normal2
    omega
  unfold extMin at low1 low2
  unfold extMax at high1 high2
  obtain ⟨k, positive, binade, rounded⟩ :=
    fltMulUnchecked_rounded (by omega : -32766 ≤ e1.exp + e2.exp) (by omega)
  refine ⟨fltMulUnchecked_sign e1 e2, fltMulUnchecked_normalized normal1 normal2, ?_,
    partialSums_lt e1.mantissa e2.mantissa⟩
  have below : e1.mantissa.value * e2.mantissa.value < 2 ^ (64 + k) := by
    rw [binade]
    split
    next short => exact short
    next => exact most
  have above : 2 ^ (63 + k) ≤ e1.mantissa.value * e2.mantissa.value := by
    rw [binade]
    split
    next => exact least
    next long => exact not_lt.mp long
  rw [rounded, magnitude_mul]
  generalize e1.mantissa.value * e2.mantissa.value = product at *
  generalize e1.exp + e2.exp - 126 = scale
  have weight (n : Nat) : (2 : ℚ) ^ (n : Int) * 2 ^ (scale + k) = (2 ^ (n + k) : Nat) * 2 ^ scale := by
    rw [zpow_add₀ (by norm_num : (2 : ℚ) ≠ 0), zpow_natCast, zpow_natCast]
    push_cast
    ring
  refine roundMultiple_nearestUp_significant (by decide) (by positivity) ?_ ?_
  · rw [weight 64]
    exact mul_lt_mul_of_pos_right (by exact_mod_cast below) (by positivity)
  · rw [show ((64 : Nat) : Int) - 1 = ((63 : Nat) : Int) by norm_num, weight 63]
    exact mul_le_mul_of_nonneg_right (by exact_mod_cast above) (by positivity)

/-- Two mantissas just above one and just below two: the product misses a power
of two by one part in `2 ^ 126`, and rounding carries out of bit 63. -/
theorem carry_correctly_rounded :
    NearestUp (Significant 64)
      (magnitude ⟨false, 3, ⟨0x80000000, 1⟩⟩ * magnitude ⟨true, -5, ⟨0xFFFFFFFF, 0xFFFFFFFE⟩⟩)
      (magnitude (fltMulUnchecked ⟨false, 3, ⟨0x80000000, 1⟩⟩
        ⟨true, -5, ⟨0xFFFFFFFF, 0xFFFFFFFE⟩⟩)) :=
  (fltMul_correctly_rounded ⟨false, 3, ⟨0x80000000, 1⟩⟩ ⟨true, -5, ⟨0xFFFFFFFF, 0xFFFFFFFE⟩⟩
    (by decide) (by decide) (by decide) (by decide) (by decide) (by decide)).2.2.1

end AckFormal.Flt.Products
