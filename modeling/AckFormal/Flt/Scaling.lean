import AckFormal.Flt.Sums
import AckFormal.Lib.RelativeError

/-!
# Scaling by powers of ten

The entries of the four tables are powers of ten up to one part in `2 ^ 64`, and
so is each product.  `add_exponent` multiplies twice as long as the exponent has
an entry of its own for its multiple of 28.
-/

namespace AckFormal.Flt.Scaling

open Mantissa Number FltArith Operations Products Str2Flt Sums Lib.RelativeError Lib.Rounding
  Lib.Truncation

def half : ℚ := 1 / 2 ^ 64

theorem half_nonneg : 0 ≤ half := by
  unfold half
  positivity

/-! ## The tables -/

/-- Two natural numbers that differ by at most one part in `2 ^ 64`. -/
def Close (a b : Nat) : Prop := (a - b) * 2 ^ 64 ≤ b ∧ (b - a) * 2 ^ 64 ≤ b

instance (a b : Nat) : Decidable (Close a b) := inferInstanceAs (Decidable (_ ∧ _))

theorem Close.within {a b : Nat} (close : Close a b) : Within half a b := by
  obtain ⟨above, below⟩ := close
  have scaled : |(a : ℚ) - b| * 2 ^ 64 ≤ b := by
    rcases le_total a b with le | ge
    · rw [abs_sub_comm, abs_of_nonneg (sub_nonneg.mpr (by exact_mod_cast le)), ← Nat.cast_sub le]
      exact_mod_cast below
    · rw [abs_of_nonneg (sub_nonneg.mpr (by exact_mod_cast ge)), ← Nat.cast_sub ge]
      exact_mod_cast above
  unfold Within half
  rw [Nat.abs_cast, one_div, inv_mul_eq_div, le_div_iff₀ (by positivity)]
  exact scaled

def Upward (e : FltArith) (p : Nat) : Prop :=
  e.sign = false ∧ 0 ≤ e.exp ∧ Close (e.mantissa.value * 2 ^ e.exp.toNat) (10 ^ p * 2 ^ 63)

/-- An entry of `r_10pow` or `r_big_10pow` against the reciprocal of one. -/
def Downward (e : FltArith) (p : Nat) : Prop :=
  e.sign = false ∧ e.exp ≤ 0 ∧ Close (e.mantissa.value * 10 ^ p) (2 ^ (63 + (-e.exp).toNat))

instance (e : FltArith) (p : Nat) : Decidable (Upward e p) :=
  inferInstanceAs (Decidable (_ ∧ _ ∧ _))

instance (e : FltArith) (p : Nat) : Decidable (Downward e p) :=
  inferInstanceAs (Decidable (_ ∧ _ ∧ _))

variable {i : Nat} {e x : FltArith}

theorem s10pow_upward (inside : i < smallsz) : Upward (s10pow.getD i zero) i := by
  revert i
  decide +kernel

theorem big10pow_upward (inside : i < bigsz) : Upward (big10pow.getD i zero) (28 * i) := by
  revert i
  decide +kernel

theorem r10pow_downward (inside : i < smallsz) : Downward (r10pow.getD i zero) i := by
  revert i
  decide +kernel

theorem rBig10pow_downward (inside : i < bigsz) : Downward (rBig10pow.getD i zero) (28 * i) := by
  revert i
  decide +kernel

theorem Upward.within {p : Nat} (upward : Upward e p) : Within half (value e) (10 ^ (p : Int)) := by
  obtain ⟨sign, nonneg, close⟩ := upward
  obtain ⟨x, exp⟩ : ∃ x : Nat, e.exp = x := ⟨e.exp.toNat, by omega⟩
  have within := close.within.mul_right ((2 : ℚ) ^ (-63 : Int))
  have left : value e = ((e.mantissa.value * 2 ^ x : Nat) : ℚ) * 2 ^ (-63 : Int) := by
    rw [value_eq, sign, signed_false, unit, exp, show (x : Int) - 63 = x + -63 by ring,
      zpow_add₀ (by norm_num), zpow_natCast]
    push_cast
    ring
  have right : (10 : ℚ) ^ (p : Int) = ((10 ^ p * 2 ^ 63 : Nat) : ℚ) * 2 ^ (-63 : Int) := by
    rw [zpow_natCast, Nat.cast_mul, Nat.cast_pow, mul_assoc]
    norm_num
  rw [exp, Int.toNat_natCast] at within
  rw [left, right]
  exact within

theorem Downward.within {p : Nat} (downward : Downward e p) :
    Within half (value e) (10 ^ (-(p : Int))) := by
  obtain ⟨sign, nonpos, close⟩ := downward
  obtain ⟨x, exp⟩ : ∃ x : Nat, e.exp = -(x : Int) := ⟨(-e.exp).toNat, by omega⟩
  have within := close.within.mul_right ((2 ^ (63 + x) : ℚ)⁻¹ * (10 ^ p)⁻¹)
  have left : value e = ((e.mantissa.value * 10 ^ p : Nat) : ℚ) * ((2 ^ (63 + x))⁻¹ * (10 ^ p)⁻¹) := by
    rw [value_eq, sign, signed_false, unit, exp,
      show -(x : Int) - 63 = -((63 + x : Nat) : Int) by push_cast; ring, zpow_neg, zpow_natCast]
    push_cast
    field_simp
  have right : (10 : ℚ) ^ (-(p : Int)) = ((2 ^ (63 + x) : Nat) : ℚ) * ((2 ^ (63 + x))⁻¹ * (10 ^ p)⁻¹) := by
    rw [zpow_neg, zpow_natCast]
    push_cast
    field_simp
  rw [exp, neg_neg, Int.toNat_natCast] at within
  rw [left, right]
  exact within

/-! ## A product -/

section

variable {y : FltArith} (xNormal : x.mantissa.Normalized) (yNormal : y.mantissa.Normalized)
include xNormal yNormal

/-- A product is off by half a unit in its last place at most. -/
theorem fltMulUnchecked_within (low : -32766 ≤ x.exp + y.exp) (high : x.exp + y.exp ≤ 32766) :
    Within half (value (fltMulUnchecked x y)) (value x * value y) := by
  obtain ⟨k, -, binade, rounded⟩ := fltMulUnchecked_rounded low high
  have sign := fltMulUnchecked_sign x y
  have least : 2 ^ (63 + k) ≤ x.mantissa.value * y.mantissa.value := by
    have bound : 2 ^ 63 * 2 ^ 63 ≤ x.mantissa.value * y.mantissa.value :=
      Nat.mul_le_mul xNormal yNormal
    rw [binade]
    split
    next => omega
    next long => omega
  have quantum : (2 : ℚ) ^ 63 * 2 ^ (x.exp + y.exp - 126 + k) ≤ magnitude x * magnitude y := by
    have cast : ((2 ^ (63 + k) : Nat) : ℚ) ≤ ((x.mantissa.value * y.mantissa.value : Nat) : ℚ) := by
      exact_mod_cast least
    rw [magnitude_mul]
    calc (2 : ℚ) ^ 63 * 2 ^ (x.exp + y.exp - 126 + k)
        = ((2 ^ (63 + k) : Nat) : ℚ) * 2 ^ (x.exp + y.exp - 126) := by
          rw [zpow_add₀ (by norm_num), zpow_natCast]
          push_cast
          ring
      _ ≤ _ := mul_le_mul_of_nonneg_right cast (by positivity)
  have near := roundMultiple_within (by positivity) quantum
  rw [← rounded] at near
  have signed (e : FltArith) : value e = (if e.sign then -1 else 1) * magnitude e := by
    unfold value dyadic magnitude
    cases e.sign <;> simp
  have product : value x * value y =
      magnitude x * magnitude y * (if x.sign ^^ y.sign then -1 else 1) := by
    rw [signed x, signed y]
    cases x.sign <;> cases y.sign <;> simp
  rw [product, signed, sign, mul_comm _ (magnitude (fltMulUnchecked x y))]
  exact near.mul_right _

theorem fltMul_within (low : -16000 ≤ x.exp + y.exp) (high : x.exp + y.exp ≤ 16000) :
    ∃ z : FltArith, fltMul x y = (z, .ok) ∧ z.mantissa.Normalized ∧
      x.exp + y.exp ≤ z.exp ∧ z.exp ≤ x.exp + y.exp + 2 ∧
      Within half (value z) (value x * value y) := by
  obtain ⟨lower, upper⟩ := fltMulUnchecked_exp x y (by omega) (by omega)
  have inside : extMin < (fltMulUnchecked x y).exp ∧ (fltMulUnchecked x y).exp < extMax := by
    unfold extMin extMax
    omega
  refine ⟨fltMulUnchecked x y, ?_, fltMulUnchecked_normalized xNormal yNormal, lower, upper,
    fltMulUnchecked_within xNormal yNormal (by omega) (by omega)⟩
  exact fltChk_of_range _ inside.1 inside.2

end

/-! ## The two products of `add_exponent` -/

def scaled : ℚ := compound (compound (compound half half) half) half

structure Powers (table : List FltArith) (size : Nat) (step : Int) (reach : Int) : Prop where
  normal : ∀ i < size, (table.getD i zero).mantissa.Normalized
  low : ∀ i < size, -reach ≤ (table.getD i zero).exp
  high : ∀ i < size, (table.getD i zero).exp ≤ reach
  within : ∀ i < size, Within half (value (table.getD i zero)) (10 ^ (step * i))

theorem s10pow_powers : Powers s10pow smallsz 1 90 where
  normal i inside := (s10pow_entry inside).1
  low i inside := le_trans (by decide) (s10pow_entry inside).2.1
  high i inside := (s10pow_entry inside).2.2
  within i inside := by
    rw [one_mul]
    exact (s10pow_upward inside).within

theorem big10pow_powers : Powers big10pow bigsz 28 1768 where
  normal i inside := (big10pow_entry inside).1
  low i inside := le_trans (by decide) (big10pow_entry inside).2.1
  high i inside := (big10pow_entry inside).2.2
  within i inside := by exact_mod_cast (big10pow_upward inside).within

theorem r10pow_powers : Powers r10pow smallsz (-1) 90 where
  normal i inside := (r10pow_entry inside).1
  low i inside := (r10pow_entry inside).2.1
  high i inside := le_trans (r10pow_entry inside).2.2 (by decide)
  within i inside := by
    rw [neg_one_mul]
    exact (r10pow_downward inside).within

theorem rBig10pow_powers : Powers rBig10pow bigsz (-28) 1768 where
  normal i inside := (rBig10pow_entry inside).1
  low i inside := (rBig10pow_entry inside).2.1
  high i inside := le_trans (rBig10pow_entry inside).2.2 (by decide)
  within i inside := by
    have within := (rBig10pow_downward inside).within
    rwa [show -((28 * i : Nat) : Int) = -28 * i by push_cast; ring] at within

theorem addExponentLoop_small (power : FltArith) (fuel : Nat) {divsz : Int} (x : FltArith)
    (status : FltStatus) (small : divsz < bigsz) :
    addExponentLoop power fuel divsz x status = (divsz, x, status) := by
  cases fuel with
  | zero => rfl
  | succ fuel => exact if_neg (not_le.mpr small)

theorem firstStatus_ok (next : FltStatus) : firstStatus .ok next = next :=
  if_pos rfl

theorem scaleBy_products {small big : List FltArith} {z : FltArith} {exp : Int} (nonneg : 0 ≤ exp)
    (inside : exp < 560) (first : fltMul e (small.getD (exp % 28).toNat zero) = (x, .ok))
    (second : fltMul x (big.getD (exp / 28).toNat zero) = (z, .ok)) :
    scaleBy small big e exp .ok = (z, .ok) := by
  have few : exp / 28 < bigsz := by
    unfold bigsz
    omega
  unfold scaleBy
  dsimp only
  rw [divsz_eq nonneg (by omega), modsz_eq nonneg (by omega), first]
  rw [addExponentLoop_small _ _ _ _ few]
  rw [second, firstStatus_ok, firstStatus_ok]

/-- A scaling by a power of ten, in two multiplications. -/
theorem scaleBy_within {small big : List FltArith} {step : Int}
    (units : Powers small smallsz step 90) (steps : Powers big bigsz (28 * step) 1768)
    (normal : e.mantissa.Normalized) (low : 0 ≤ e.exp) (high : e.exp ≤ 63) {n : Nat}
    (inside : n < 560) :
    ∃ z : FltArith, scaleBy small big e n .ok = (z, .ok) ∧ z.mantissa.Normalized ∧
      -3000 ≤ z.exp ∧ z.exp ≤ 3000 ∧ Within scaled (value z) (value e * 10 ^ (step * n)) := by
  have unit : n % 28 < smallsz := Nat.mod_lt _ (by decide)
  have multiple : n / 28 < bigsz := by
    unfold bigsz
    omega
  have unitLow := units.low _ unit
  have unitHigh := units.high _ unit
  have stepLow := steps.low _ multiple
  have stepHigh := steps.high _ multiple
  obtain ⟨x, first, xNormal, xLow, xHigh, xWithin⟩ :=
    fltMul_within normal (units.normal _ unit) (by omega) (by omega)
  obtain ⟨z, second, zNormal, zLow, zHigh, zWithin⟩ :=
    fltMul_within xNormal (steps.normal _ multiple) (by omega) (by omega)
  refine ⟨z, ?_, zNormal, by omega, by omega, ?_⟩
  · refine scaleBy_products (x := x) (by omega) (by omega) ?_ ?_
    · rwa [show ((n : Int) % 28).toNat = n % 28 by omega]
    · rwa [show ((n : Int) / 28).toNat = n / 28 by omega]
  · have one : Within (compound half half) (value x) (value e * 10 ^ (step * (n % 28 : Nat))) := by
      refine Within.trans half_nonneg ?_ xWithin
      rw [mul_comm (value e), mul_comm (value e)]
      exact (units.within _ unit).mul_right _
    have both := one.mul half_nonneg (steps.within _ multiple)
    have power : (10 : ℚ) ^ (step * n) =
        10 ^ (step * (n % 28 : Nat)) * 10 ^ (28 * step * (n / 28 : Nat)) := by
      have whole : ((n % 28 : Nat) : Int) + (n / 28 : Nat) * 28 = n := by omega
      rw [← zpow_add₀ (by norm_num), mul_comm 28, mul_right_comm, mul_assoc step, ← mul_add, whole]
    rw [power, ← mul_assoc]
    exact both.trans half_nonneg zWithin

/-- An exponent below 560 in absolute value needs one entry of each table. -/
theorem addExponent_within (normal : e.mantissa.Normalized) (low : 0 ≤ e.exp) (high : e.exp ≤ 63)
    {exp : Int} (inside : |exp| < 560) :
    ∃ z : FltArith, addExponent e exp .ok = (z, .ok) ∧ z.mantissa.Normalized ∧
      -3000 ≤ z.exp ∧ z.exp ≤ 3000 ∧ Within scaled (value z) (value e * 10 ^ exp) := by
  obtain ⟨above, below⟩ := abs_lt.mp inside
  unfold addExponent
  by_cases negative : exp < 0
  · obtain ⟨n, rfl⟩ : ∃ n : Nat, exp = -(n : Int) := ⟨(-exp).toNat, by omega⟩
    have magnitude : toInt (-(-(n : Int))) = n := by
      unfold toInt
      omega
    have result := scaleBy_within (n := n) r10pow_powers rBig10pow_powers normal low high (by omega)
    rw [if_pos negative, magnitude]
    rwa [neg_one_mul] at result
  · obtain ⟨n, rfl⟩ : ∃ n : Nat, exp = n := ⟨exp.toNat, by omega⟩
    have result := scaleBy_within (n := n) s10pow_powers big10pow_powers normal low high (by omega)
    rw [if_neg negative]
    rwa [one_mul] at result

end AckFormal.Flt.Scaling
