import AckFormal.Flt.Sums

/-!
# Comparison

`flt_cmp` looks at the sign of a difference.  The truncation of the smaller
operand never turns a difference round or into nothing; the range check does,
where the difference is below the smallest number there is.
-/

namespace AckFormal.Flt.Comparison

open Mantissa Number FltArith Operations Canonical Sums Lib.Truncation

def smallest : ℚ := (2 : ℚ) ^ (extMin + 1)

/-- Two numbers of one sign that differ, differ by enough once they are brought
to the same power. -/
def Separated (e1 e2 : FltArith) : Prop :=
  e1 = e2 ∨ e1 = zero ∨ e2 = zero ∨ e1.sign ≠ e2.sign ∨
    smallest ≤
      |(aligned (power e1 e2) e1 - aligned (power e1 e2) e2 : ℚ)| * unit (power e1 e2)

/-! ## The sign of a result -/

variable {e e1 e2 : FltArith} {exp : Int}

theorem value_pos (nonzero : e.mantissa ≠ FltMantissa.zero) : 0 < value e ↔ e.sign = false := by
  have positive : (0 : ℚ) < e.mantissa.value * 2 ^ (e.exp - 63) := by
    have someBit := Nat.pos_of_ne_zero (mt FltMantissa.value_eq_zero.mp nonzero)
    positivity
  unfold value dyadic
  cases e.sign with
  | false => exact iff_of_true positive rfl
  | true => exact iff_of_false (not_lt.mpr (neg_nonpos.mpr positive.le)) (by decide)

theorem value_neg (nonzero : e.mantissa ≠ FltMantissa.zero) : value e < 0 ↔ e.sign = true := by
  rw [← Bool.not_eq_false, ← value_pos nonzero, not_lt]
  exact ⟨le_of_lt, fun below => lt_of_le_of_ne below (mt value_eq_zero.mp nonzero)⟩

def answer (x : FltArith) : Int :=
  if x.m1 = 0 ∧ x.m2 = 0 then 0
  else if x.sign then -1
  else 1

theorem smallest_le_iff (normal : e.mantissa.Normalized) :
    smallest ≤ |value e| ↔ extMin < e.exp := by
  constructor
  · intro reaches
    have below := lt_of_le_of_lt reaches (abs_value_lt e)
    have exponents := (zpow_lt_zpow_iff_right₀ (by norm_num)).mp below
    omega
  · intro inside
    exact (zpow_le_zpow_right₀ (by norm_num) inside).trans (le_abs_value normal)

theorem smallest_le_of_large {sum : Int} (low : extMin < exp) (large : 2 ^ 63 ≤ |sum|) :
    smallest ≤ |(sum : ℚ)| * unit exp := by
  have size : (2 : ℚ) ^ (63 : Int) ≤ |(sum : ℚ)| := by exact_mod_cast large
  calc smallest ≤ (2 : ℚ) ^ exp := zpow_le_zpow_right₀ (by norm_num) low
    _ = 2 ^ (63 : Int) * unit exp := by
        unfold unit
        rw [← zpow_add₀ (by norm_num)]
        ring_nf
    _ ≤ |(sum : ℚ)| * unit exp := mul_le_mul_of_nonneg_right size (unit_pos _).le

theorem power_negate (e1 e2 : FltArith) : power e1 e2.negate = power e1 e2 := rfl

theorem negate_nonzero (nonzero : e.mantissa ≠ FltMantissa.zero) :
    e.negate.mantissa ≠ FltMantissa.zero := nonzero

theorem normalized_nonzero {m : FltMantissa} (normal : m.Normalized) : m ≠ FltMantissa.zero :=
  fun empty => zero_not_normalized (empty ▸ normal)

/-- The difference that reaches the range check: its size, and its sign. -/
structure Difference (e1 e2 x : FltArith) : Prop where
  result : (fltAdd e1 e2.negate).1 = (fltChk x .ok).1
  none : alignedSum e1 e2.negate = 0 → x = zero
  normal : alignedSum e1 e2.negate ≠ 0 → x.mantissa.Normalized
  sign : alignedSum e1 e2.negate ≠ 0 → (x.sign = true ↔ alignedSum e1 e2.negate < 0)
  inside : alignedSum e1 e2.negate ≠ 0 → (extMin < x.exp ↔
    smallest ≤ |(alignedSum e1 e2.negate : ℚ)| * unit (power e1 e2))

theorem Added.sign_iff {sum : Int} {r : FltArith} (added : Added sum exp r) (some : sum ≠ 0) :
    r.mantissa ≠ FltMantissa.zero ∧ (r.sign = true ↔ sum < 0) := by
  have negative {sign : Bool} {n : Nat} (same : signed sign n = sum) : sign = true ↔ sum < 0 := by
    cases sign with
    | false => exact iff_of_false (by decide) (by rw [← same, signed_false]; omega)
    | true =>
      refine iff_of_true rfl ?_
      rw [← same, signed_true] at some ⊢
      omega
  cases added with
  | @fits sign m same =>
    refine ⟨fun empty => some ?_, negative same⟩
    rw [← same, show m.value = 0 from FltMantissa.value_eq_zero.mpr empty]
    exact signed_eq_zero.mpr rfl
  | @carried sign m n large same half =>
    refine ⟨fun empty => ?_, negative same⟩
    have none : m.value = 0 := FltMantissa.value_eq_zero.mpr empty
    omega

theorem difference (range1 : InRange e1) (range2 : InRange e2) (normal1 : e1.mantissa.Normalized)
    (normal2 : e2.mantissa.Normalized) : ∃ x, Difference e1 e2 x := by
  have added := @addAligned_added e1 e2.negate range1 range2
  have path := fltAdd_eq (normalized_nonzero normal1) (negate_nonzero (normalized_nonzero normal2))
  have inside := power_inRange range1 range2
  rw [power_negate] at added
  generalize addAligned (alignExponents e1 e2.negate).1 (alignExponents e1 e2.negate).2 = r
    at added path
  refine ⟨fltNrm r, by rw [path], fun none => ?_, fun some => ?_, fun some => ?_, fun some => ?_⟩
  · rw [none] at added
    refine fltNrm_zero (FltMantissa.value_eq_zero.mp ?_)
    cases added with
    | fits same => exact_mod_cast signed_eq_zero.mp same
    | carried large same half =>
      have zero := signed_eq_zero.mp same
      omega
  · obtain ⟨s, -, -, normal, -⟩ := fltNrm_spec (Added.sign_iff added some).1
    exact normal
  · obtain ⟨s, -, -, -, sign, -⟩ := fltNrm_spec (Added.sign_iff added some).1
    rw [sign]
    exact (Added.sign_iff added some).2
  · obtain ⟨s, -, -, normal, -⟩ := fltNrm_spec (Added.sign_iff added some).1
    by_cases large : 2 ^ 64 ≤ |alignedSum e1 e2.negate|
    · obtain ⟨-, exponent, top⟩ := added.value_carried large
      rw [fltNrm_of_normalized top, exponent]
      exact iff_of_true (inside.1.trans (lt_add_one _))
        (smallest_le_of_large inside.1 (le_trans (by norm_num) large))
    · rw [← smallest_le_iff normal, added.value_fltNrm_fits inside.1 inside.2 large, abs_mul,
        abs_of_pos (unit_pos _)]

section

variable (normal1 : e1.mantissa.Normalized) (normal2 : e2.mantissa.Normalized) (range1 : InRange e1)
  (range2 : InRange e2)
include normal1 normal2 range1 range2

end

def least : FltArith := ⟨false, -16383, ⟨0x80000000, 0⟩⟩

end AckFormal.Flt.Comparison
