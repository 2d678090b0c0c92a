import AckFormal.Lib.Rounding

/-!
# Relative errors

A number that is off by at most a given part of the exact one.  Errors add up,
and a little more, along products and along successive approximations; rounding
to a number of significant bits is such an error.
-/

namespace AckFormal.Lib.RelativeError

open Rounding

/-- `v` is `t` up to the part `ε` of `t`. -/
def Within (ε v t : ℚ) : Prop := |v - t| ≤ ε * |t|

def compound (ε δ : ℚ) : ℚ := ε + δ + ε * δ

variable {ε δ v w t u : ℚ}

theorem Within.mono (within : Within ε v t) (le : ε ≤ δ) : Within δ v t :=
  within.trans (mul_le_mul_of_nonneg_right le (abs_nonneg t))

theorem Within.abs_le (within : Within ε v t) : |v| ≤ (1 + ε) * |t| := by
  have triangle := abs_sub_abs_le_abs_sub v t
  unfold Within at within
  linarith

theorem Within.le_abs (within : Within ε v t) : (1 - ε) * |t| ≤ |v| := by
  have triangle := abs_sub_abs_le_abs_sub t v
  rw [abs_sub_comm] at triangle
  unfold Within at within
  linarith

theorem Within.trans (nonneg : 0 ≤ δ) (first : Within ε v t) (second : Within δ w v) :
    Within (compound ε δ) w t := by
  have size := mul_le_mul_of_nonneg_left first.abs_le nonneg
  calc |w - t| ≤ |w - v| + |v - t| := abs_sub_le w v t
    _ ≤ δ * |v| + ε * |t| := add_le_add second first
    _ ≤ (ε + δ + ε * δ) * |t| := by linarith

theorem Within.mul (nonneg : 0 ≤ δ) (first : Within ε v t) (second : Within δ w u) :
    Within (compound ε δ) (v * w) (t * u) := by
  have size := mul_le_mul_of_nonneg_right first.abs_le (mul_nonneg nonneg (abs_nonneg u))
  have left := mul_le_mul_of_nonneg_left second (abs_nonneg v)
  have right := mul_le_mul_of_nonneg_right first (abs_nonneg u)
  calc |v * w - t * u| = |v * (w - u) + (v - t) * u| := by
        ring_nf
    _ ≤ |v| * |w - u| + |v - t| * |u| := by
        rw [← abs_mul, ← abs_mul]
        exact abs_add_le _ _
    _ ≤ (1 + ε) * |t| * (δ * |u|) + ε * |t| * |u| := by linarith
    _ = (ε + δ + ε * δ) * |t * u| := by
        rw [abs_mul]
        ring

theorem Within.mul_right (within : Within ε v t) (u : ℚ) : Within ε (v * u) (t * u) := by
  unfold Within at *
  rw [← sub_mul, abs_mul, abs_mul, ← mul_assoc]
  exact mul_le_mul_of_nonneg_right within (abs_nonneg u)

theorem Within.far (within : Within ε v u) (small : ε ≤ 1 / 2)
    (apart : 4 * |u| ≤ |t| ∨ 4 * |t| ≤ |u|) : |t| / 2 ≤ |v - t| := by
  have most := (within.mono small).abs_le
  have least := (within.mono small).le_abs
  have less := abs_sub_abs_le_abs_sub t v
  have more := abs_sub_abs_le_abs_sub v t
  rw [abs_sub_comm] at less
  rcases apart with large | tiny
  · linarith
  · linarith

theorem roundMultiple_error (v : ℚ) {quantum : ℚ} (positive : 0 < quantum) :
    |roundMultiple v quantum - v| ≤ quantum / 2 := by
  have low := Int.floor_le (v / quantum + 1 / 2)
  have high := Int.lt_floor_add_one (v / quantum + 1 / 2)
  unfold roundMultiple
  generalize ⌊v / quantum + 1 / 2⌋ = n at low high ⊢
  obtain ⟨x, rfl⟩ : ∃ x, v = x * quantum := ⟨v / quantum, by field_simp⟩
  rw [mul_div_cancel_right₀ _ positive.ne'] at low high
  have near : |(n : ℚ) - x| ≤ 1 / 2 := abs_le.mpr ⟨by linarith, by linarith⟩
  rw [← sub_mul, abs_mul, abs_of_pos positive, div_eq_inv_mul, ← one_div]
  exact mul_le_mul_of_nonneg_right near positive.le

theorem roundMultiple_within {v quantum : ℚ} {precision : Nat} (positive : 0 < quantum)
    (binade : 2 ^ precision * quantum ≤ v) :
    Within (1 / 2 ^ (precision + 1)) (roundMultiple v quantum) v := by
  have nonneg : 0 ≤ v := le_trans (by positivity) binade
  unfold Within
  rw [abs_of_nonneg nonneg]
  calc |roundMultiple v quantum - v| ≤ quantum / 2 := roundMultiple_error v positive
    _ = 1 / 2 ^ (precision + 1) * (2 ^ precision * quantum) := by
        rw [pow_succ]
        field_simp
    _ ≤ 1 / 2 ^ (precision + 1) * v := mul_le_mul_of_nonneg_left binade (by positivity)

end AckFormal.Lib.RelativeError
