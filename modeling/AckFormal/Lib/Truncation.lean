import Mathlib.Data.Rat.Floor
import Mathlib.Algebra.Order.Field.Power
import Mathlib.Tactic.Positivity

/-!
# Truncation toward zero

The integer part of a rational number, and that of a number given by a sign, a significand and
an exponent.
-/

namespace AckFormal.Lib.Truncation

def truncate (v : ℚ) : ℤ := if v < 0 then ⌈v⌉ else ⌊v⌋

/-- The number with a sign, a significand and the weight of the significand's lowest bit. -/
def dyadic (negative : Bool) (significand : ℕ) (scale : ℤ) : ℚ :=
  if negative then -(significand * (2 : ℚ) ^ scale) else significand * (2 : ℚ) ^ scale

def signed (negative : Bool) (magnitude : ℤ) : ℤ := if negative then -magnitude else magnitude

@[simp]
theorem signed_true (magnitude : ℤ) : signed true magnitude = -magnitude := rfl

@[simp]
theorem signed_false (magnitude : ℤ) : signed false magnitude = magnitude := rfl

theorem signed_neg (negative : Bool) (magnitude : ℤ) :
    signed (!negative) magnitude = -signed negative magnitude := by
  cases negative with
  | false => rfl
  | true => exact (neg_neg magnitude).symm

theorem signed_add (negative : Bool) (x y : ℤ) :
    signed negative x + signed negative y = signed negative (x + y) := by
  cases negative with
  | false => rfl
  | true => exact (neg_add x y).symm

theorem signed_sub (negative : Bool) (x y : ℤ) :
    signed negative (x - y) = signed negative x - signed negative y := by
  cases negative with
  | false => rfl
  | true => exact (neg_sub x y).trans (neg_sub_neg x y).symm

theorem signed_mul (negative : Bool) (x y : ℤ) :
    signed negative (x * y) = signed negative x * y := by
  cases negative with
  | false => rfl
  | true => exact (neg_mul x y).symm

theorem signed_eq_zero {negative : Bool} {magnitude : ℤ} :
    signed negative magnitude = 0 ↔ magnitude = 0 := by
  cases negative with
  | false => exact Iff.rfl
  | true => exact neg_eq_zero

theorem abs_signed_int (negative : Bool) (x : ℤ) : |signed negative x| = |x| := by
  cases negative with
  | false => rfl
  | true => exact abs_neg x

theorem abs_signed (negative : Bool) (magnitude : ℕ) :
    |signed negative magnitude| = magnitude :=
  (abs_signed_int negative magnitude).trans (Nat.abs_cast magnitude)

theorem abs_signed_sub_lt {x y bound : ℕ} (negative : Bool) (first : x < bound) (second : y < bound) :
    |signed negative (x - y)| < bound := by
  rw [abs_lt]
  cases negative <;> simp only [signed_true, signed_false] <;> omega

theorem signed_inj {negative negative' : Bool} {magnitude magnitude' : ℕ}
    (same : signed negative magnitude = signed negative' magnitude') :
    magnitude = magnitude' ∧ (magnitude ≠ 0 → negative = negative') := by
  cases negative <;> cases negative' <;> simp only [signed_true, signed_false] at same <;>
    exact ⟨by omega, fun nonzero => by first | rfl | omega⟩

section

variable (negative : Bool)
include negative

theorem signed_halved (half rest : ℕ) (unit : ℚ) :
    signed negative half * (2 * unit) - signed negative (2 * half + rest : ℕ) * unit =
      -(signed negative rest * unit) := by
  cases negative <;> simp only [signed_true, signed_false] <;> push_cast <;> ring

theorem dyadic_eq_signed (significand : ℕ) (scale : ℤ) :
    dyadic negative significand scale = signed negative significand * (2 : ℚ) ^ scale := by
  cases negative with
  | false => rfl
  | true =>
    exact (neg_mul _ _).symm

theorem dyadic_neg (significand : ℕ) (scale : ℤ) :
    dyadic (!negative) significand scale = -dyadic negative significand scale := by
  rw [dyadic_eq_signed, dyadic_eq_signed, signed_neg]
  push_cast
  exact neg_mul _ _

@[simp]
theorem dyadic_zero (scale : ℤ) : dyadic negative 0 scale = 0 := by
  cases negative <;> simp [dyadic]

theorem abs_dyadic (significand : ℕ) (scale : ℤ) :
    |dyadic negative significand scale| = significand * (2 : ℚ) ^ scale := by
  have positive : (0 : ℚ) ≤ significand * (2 : ℚ) ^ scale := by positivity
  cases negative with
  | false => exact abs_of_nonneg positive
  | true => exact (abs_neg _).trans (abs_of_nonneg positive)

theorem dyadic_shift (significand n : ℕ) (scale : ℤ) :
    dyadic negative (significand * 2 ^ n) scale = dyadic negative significand (scale + n) := by
  unfold dyadic
  rw [zpow_add₀ (by norm_num), zpow_natCast]
  push_cast
  split <;> ring

/-- What is lost when the low bits of a significand are shifted out. -/
theorem dyadic_dropped (significand n : ℕ) (scale : ℤ) :
    |dyadic negative (significand / 2 ^ n) (scale + n) - dyadic negative significand scale| <
      (2 : ℚ) ^ (scale + n) := by
  have whole := Nat.div_add_mod significand (2 ^ n)
  have rest : significand % 2 ^ n < 2 ^ n := Nat.mod_lt _ (Nat.two_pow_pos n)
  have split : dyadic negative significand scale =
      dyadic negative (significand / 2 ^ n) (scale + n) +
        dyadic negative (significand % 2 ^ n) scale := by
    rw [← dyadic_shift]
    unfold dyadic
    conv_lhs => rw [← whole]
    push_cast
    split <;> ring
  rw [split, sub_add_cancel_left, abs_neg, abs_dyadic, add_comm, zpow_add₀ (by norm_num),
    zpow_natCast]
  refine mul_lt_mul_of_pos_right ?_ (by positivity)
  exact_mod_cast rest

theorem truncate_dyadic (significand : ℕ) (scale : ℤ) :
    truncate (dyadic negative significand scale) =
      signed negative ⌊(significand : ℚ) * (2 : ℚ) ^ scale⌋ := by
  have positive : (0 : ℚ) ≤ significand * (2 : ℚ) ^ scale := by positivity
  cases negative with
  | false => exact if_neg (not_lt.mpr positive)
  | true =>
    change truncate (-(significand * (2 : ℚ) ^ scale)) = -⌊(significand : ℚ) * (2 : ℚ) ^ scale⌋
    unfold truncate
    split
    · exact Int.ceil_neg
    next nonneg =>
        have zero : (significand : ℚ) * (2 : ℚ) ^ scale = 0 := by linarith
        rw [zero]
        rfl

end

theorem floor_right (significand n : ℕ) :
    ⌊(significand : ℚ) * (2 : ℚ) ^ (-(n : ℤ))⌋ = ((significand / 2 ^ n : ℕ) : ℤ) := by
  have quotient : (significand : ℚ) * (2 : ℚ) ^ (-(n : ℤ)) = (significand : ℚ) / ((2 ^ n : ℕ) : ℚ) := by
    rw [zpow_neg, zpow_natCast, div_eq_mul_inv]
    push_cast
    rfl
  rw [quotient, Rat.floor_natCast_div_natCast]
  exact (Int.natCast_ediv significand (2 ^ n)).symm

theorem floor_small {significand bits : ℕ} {scale : ℤ} (few : significand < 2 ^ bits)
    (low : scale ≤ -bits) : ⌊(significand : ℚ) * (2 : ℚ) ^ scale⌋ = 0 := by
  refine Int.floor_eq_zero_iff.mpr ⟨by positivity, ?_⟩
  have bound : (significand : ℚ) < 2 ^ (bits : ℤ) := by
    exact_mod_cast few
  calc (significand : ℚ) * 2 ^ scale
      < 2 ^ (bits : ℤ) * 2 ^ scale := by gcongr
    _ ≤ 2 ^ (bits : ℤ) * 2 ^ (-(bits : ℤ)) := by
        gcongr
        exact one_le_two
    _ = 1 := by rw [← zpow_add₀ (by norm_num)]; simp

theorem le_floor {significand bits n : ℕ} (high : 2 ^ bits ≤ significand) :
    ((2 ^ n : ℕ) : ℤ) ≤ ⌊(significand : ℚ) * (2 : ℚ) ^ ((n : ℤ) - bits)⌋ := by
  refine Int.le_floor.mpr ?_
  have bound : (2 : ℚ) ^ (bits : ℤ) ≤ significand := by
    exact_mod_cast high
  calc (((2 ^ n : ℕ) : ℤ) : ℚ)
      = 2 ^ (bits : ℤ) * 2 ^ ((n : ℤ) - bits) := by
        rw [← zpow_add₀ (by norm_num)]
        simp
    _ ≤ significand * 2 ^ ((n : ℤ) - bits) := by gcongr

end AckFormal.Lib.Truncation
