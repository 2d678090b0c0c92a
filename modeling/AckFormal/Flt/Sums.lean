import AckFormal.Flt.Canonical
import AckFormal.Flt.Products
import AckFormal.Lib.Truncation

/-!
# The error of a sum

`flt_add` brings the operand with the smaller exponent to the power of the
other, which drops its low bits, adds or subtracts the mantissas as integers,
and normalises.  Both kinds of sum are described by one integer, the sum of the
two aligned mantissas with their signs.
-/

namespace AckFormal.Flt.Sums

open Mantissa Number FltArith Operations Sequence Canonical Lib.Truncation

def value (e : FltArith) : ℚ := dyadic e.sign e.mantissa.value (e.exp - 63)

def unit (exp : Int) : ℚ := (2 : ℚ) ^ (exp - 63)

def power (e1 e2 : FltArith) : Int := max e1.exp e2.exp

def aligned (exp : Int) (e : FltArith) : Nat := e.mantissa.value / 2 ^ (exp - e.exp).toNat

def alignedSum (e1 e2 : FltArith) : Int :=
  signed e1.sign (aligned (power e1 e2) e1) + signed e2.sign (aligned (power e1 e2) e2)

def Carries (e1 e2 : FltArith) : Prop :=
  e1.sign = e2.sign ∧
    (fltB64Add (alignExponents e1 e2).2.mantissa (alignExponents e1 e2).1.mantissa).2 = true

structure Accurate (e1 e2 : FltArith) (exact : ℚ) (res : FltArith) : Prop where
  error : |value res - exact| < unit (max (power e1 e2) res.exp)
  uncarried : ¬ Carries e1 e2 → |value res - exact| < unit (power e1 e2)
  equal : e1.exp = e2.exp → ¬ Carries e1 e2 → value res = exact
  formed : res = zero ∨ res.mantissa.Normalized

theorem unit_pos (exp : Int) : 0 < unit exp := by
  unfold unit
  positivity

theorem unit_succ (exp : Int) : unit (exp + 1) = 2 * unit exp := by
  unfold unit
  rw [show exp + 1 - 63 = exp - 63 + 1 by ring, zpow_add_one₀ (by norm_num), mul_comm]

theorem unit_le {low high : Int} (le : low ≤ high) : unit low ≤ unit high :=
  zpow_le_zpow_right₀ (by norm_num) (by omega)

theorem value_eq (e : FltArith) : value e = signed e.sign e.mantissa.value * unit e.exp :=
  dyadic_eq_signed ..

theorem value_mk (sign : Bool) (exp : Int) (m : FltMantissa) :
    value ⟨sign, exp, m⟩ = signed sign m.value * unit exp :=
  dyadic_eq_signed ..

theorem value_of_zero {e : FltArith} (empty : e.mantissa = FltMantissa.zero) : value e = 0 := by
  unfold value
  rw [empty]
  exact dyadic_zero ..

theorem value_negate (e : FltArith) : value e.negate = -value e :=
  dyadic_neg ..

theorem abs_value (e : FltArith) : |value e| = Products.magnitude e :=
  abs_dyadic ..

variable {e e1 e2 r : FltArith} {exp sum : Int}

theorem value_eq_zero : value e = 0 ↔ e.mantissa = FltMantissa.zero := by
  rw [value_eq, mul_eq_zero, or_iff_left (unit_pos _).ne', Int.cast_eq_zero, signed_eq_zero,
    Int.natCast_eq_zero, FltMantissa.value_eq_zero]

theorem abs_value_lt (e : FltArith) : |value e| < 2 ^ (e.exp + 1) := by
  have bound : (e.mantissa.value : ℚ) < 2 ^ (64 : Int) := by exact_mod_cast e.mantissa.value_lt
  rw [abs_value]
  calc e.mantissa.value * (2 : ℚ) ^ (e.exp - 63)
      < 2 ^ (64 : Int) * 2 ^ (e.exp - 63) := mul_lt_mul_of_pos_right bound (unit_pos _)
    _ = 2 ^ (e.exp + 1) := by
        rw [← zpow_add₀ (by norm_num)]
        ring_nf

theorem le_abs_value (normal : e.mantissa.Normalized) : 2 ^ e.exp ≤ |value e| := by
  have bound : (2 : ℚ) ^ (63 : Int) ≤ e.mantissa.value := by exact_mod_cast normal
  rw [abs_value]
  calc (2 : ℚ) ^ e.exp = 2 ^ (63 : Int) * 2 ^ (e.exp - 63) := by
        rw [← zpow_add₀ (by norm_num)]
        ring_nf
    _ ≤ e.mantissa.value * 2 ^ (e.exp - 63) := mul_le_mul_of_nonneg_right bound (unit_pos _).le

/-! ## The aligned mantissas -/

theorem aligned_lt (exp : Int) (e : FltArith) : aligned exp e < 2 ^ 64 :=
  lt_of_le_of_lt (Nat.div_le_self _ _) e.mantissa.value_lt

theorem aligned_self (e : FltArith) : aligned e.exp e = e.mantissa.value := by
  unfold aligned
  rw [sub_self, Int.toNat_zero, pow_zero, Nat.div_one]

theorem aligned_error (below : e.exp ≤ exp) :
    |signed e.sign (aligned exp e) * unit exp - value e| < unit exp := by
  obtain ⟨n, distance⟩ : ∃ n : Nat, exp = e.exp + n := ⟨(exp - e.exp).toNat, by omega⟩
  have dropped := dyadic_dropped e.sign e.mantissa.value n (e.exp - 63)
  have count : (exp - e.exp).toNat = n := by omega
  rw [dyadic_eq_signed, show e.exp - 63 + (n : Int) = exp - 63 by omega] at dropped
  unfold aligned
  rw [count]
  exact dropped

def InRange (e : FltArith) : Prop := extMin < e.exp ∧ e.exp < extMax

theorem alignExponents_spec (range1 : InRange e1) (range2 : InRange e2) :
    ∃ a b : FltMantissa, alignExponents e1 e2 =
        (⟨e1.sign, power e1 e2, a⟩, ⟨e2.sign, power e1 e2, b⟩) ∧
      a.value = aligned (power e1 e2) e1 ∧ b.value = aligned (power e1 e2) e2 := by
  obtain ⟨low1, high1⟩ := range1
  obtain ⟨low2, high2⟩ := range2
  unfold extMin at low1 low2
  unfold extMax at high1 high2
  unfold alignExponents power aligned
  rcases lt_trichotomy e1.exp e2.exp with below | same | above
  · obtain ⟨n, distance⟩ : ∃ n : Nat, e2.exp - e1.exp = n := ⟨(e2.exp - e1.exp).toNat, by omega⟩
    rw [if_neg (by omega), if_pos (by omega), max_eq_right below.le, distance,
      toShort_of_range (by omega) (by omega), show e1.exp + (n : Int) = e2.exp by omega, sub_self]
    refine ⟨_, _, rfl, fltB64Sft_div _ _, ?_⟩
    rw [Int.toNat_zero, pow_zero, Nat.div_one]
  · rw [if_neg (by omega), if_neg (by omega), same, max_self, sub_self]
    refine ⟨e1.mantissa, e2.mantissa, ?_, ?_, ?_⟩
    · obtain ⟨s2, x2, b⟩ := e2
      rw [← show e1.exp = x2 from same]
    · rw [Int.toNat_zero, pow_zero, Nat.div_one]
    · rw [Int.toNat_zero, pow_zero, Nat.div_one]
  · obtain ⟨n, distance⟩ : ∃ n : Nat, e1.exp - e2.exp = n := ⟨(e1.exp - e2.exp).toNat, by omega⟩
    rw [if_pos (by omega), max_eq_left above.le, show -(e2.exp - e1.exp) = (n : Int) by omega,
      toShort_of_range (by omega) (by omega), show e2.exp + (n : Int) = e1.exp by omega, sub_self,
      distance]
    refine ⟨_, _, rfl, ?_, fltB64Sft_div _ _⟩
    rw [Int.toNat_zero, pow_zero, Nat.div_one]

theorem carries_iff (range1 : InRange e1) (range2 : InRange e2) :
    Carries e1 e2 ↔ e1.sign = e2.sign ∧
      2 ^ 64 ≤ aligned (power e1 e2) e1 + aligned (power e1 e2) e2 := by
  obtain ⟨a, b, both, aValue, bValue⟩ := alignExponents_spec range1 range2
  unfold Carries
  rw [both, fltB64Add_carry, aValue, bValue, decide_eq_true_eq, add_comm]

/-! ## The sum of two aligned numbers -/

/-- A number that holds `sum` units of an exponent, or half of it after a
carry. -/
inductive Added (sum exp : Int) : FltArith → Prop
  | fits {sign : Bool} {m : FltMantissa} (same : signed sign m.value = sum) :
      Added sum exp ⟨sign, exp, m⟩
  | carried {sign : Bool} {m : FltMantissa} {n : Nat} (large : 2 ^ 64 ≤ n)
      (same : signed sign n = sum) (half : m.value = n / 2) : Added sum exp ⟨sign, exp + 1, m⟩

theorem exceeds_iff (a b : FltMantissa) :
    a.h32 > b.h32 ∨ (a.h32 = b.h32 ∧ a.l32 > b.l32) ↔ b.value < a.value := by
  have aLow := a.l32.toNat_lt
  have bLow := b.l32.toNat_lt
  unfold FltMantissa.value
  rw [gt_iff_lt, gt_iff_lt, UInt32.lt_iff_toNat_lt, UInt32.lt_iff_toNat_lt, ← UInt32.toNat_inj]
  omega

theorem addAligned_opposite {s1 s2 : Bool} (exp : Int) (a b : FltMantissa) (opposite : s1 ≠ s2) :
    Added (signed s1 a.value + signed s2 b.value) exp (addAligned ⟨s1, exp, a⟩ ⟨s2, exp, b⟩) := by
  obtain rfl : s1 = !s2 := Bool.eq_not_of_ne opposite
  unfold addAligned
  rw [if_pos opposite]
  by_cases above : b.value < a.value
  · rw [if_pos ((exceeds_iff a b).mpr above)]
    refine Added.fits ?_
    rw [subtractMantissa_value above.le, Nat.cast_sub above.le, signed_sub, signed_neg, signed_neg,
      neg_sub_neg, neg_add_eq_sub]
  · have below := not_lt.mp above
    rw [if_neg (mt (exceeds_iff a b).mp above)]
    refine Added.fits ?_
    rw [subtractMantissa_value below, Nat.cast_sub below, signed_sub, signed_neg, neg_add_eq_sub]

/-- Numbers of equal power and of one sign; a carry goes into the exponent. -/
theorem addAligned_alike {e1 e2 : FltArith} (alike : e1.sign = e2.sign) (low : -32769 ≤ e2.exp)
    (high : e2.exp < 32767) :
    Added (signed e1.sign e1.mantissa.value + signed e2.sign e2.mantissa.value) e2.exp
      (addAligned e1 e2) := by
  have total : signed e1.sign e1.mantissa.value + signed e2.sign e2.mantissa.value =
      signed e2.sign (e2.mantissa.value + e1.mantissa.value : Nat) := by
    rw [alike, signed_add, Nat.cast_add, add_comm]
  have bound1 := e1.mantissa.value_lt
  have bound2 := e2.mantissa.value_lt
  have sum := fltB64Add_value e2.mantissa e1.mantissa
  have carry := fltB64Add_carry e2.mantissa e1.mantissa
  unfold addAligned
  rw [if_neg (not_not.mpr alike), total]
  generalize fltB64Add e2.mantissa e1.mantissa = result at sum carry ⊢
  obtain ⟨m, carried⟩ := result
  dsimp only at sum carry ⊢
  by_cases large : 2 ^ 64 ≤ e2.mantissa.value + e1.mantissa.value
  · have half := fltB64Sft_right m (by decide : 1 ≤ 63)
    rw [Nat.cast_one] at half
    rw [if_pos (carry.trans (decide_eq_true large)), toShort_of_range (by omega) (by omega)]
    refine Added.carried large rfl ?_
    rw [set_top (by omega)]
    omega
  · rw [if_neg (by rw [carry, decide_eq_true_eq]; exact large)]
    refine Added.fits ?_
    rw [sum, Nat.mod_eq_of_lt (not_le.mp large)]

theorem addAligned_added {e1 e2 : FltArith} (range1 : InRange e1) (range2 : InRange e2) :
    Added (alignedSum e1 e2) (power e1 e2)
      (addAligned (alignExponents e1 e2).1 (alignExponents e1 e2).2) := by
  obtain ⟨a, b, both, aValue, bValue⟩ := alignExponents_spec range1 range2
  have range : extMin < power e1 e2 ∧ power e1 e2 < extMax :=
    ⟨lt_of_lt_of_le range1.1 (le_max_left _ _), max_lt range1.2 range2.2⟩
  unfold extMin extMax at range
  unfold alignedSum
  rw [both, ← aValue, ← bValue]
  by_cases alike : e1.sign = e2.sign
  · have low : -32769 ≤ power e1 e2 := by omega
    have high : power e1 e2 < 32767 := by omega
    exact @addAligned_alike ⟨e1.sign, power e1 e2, a⟩ ⟨e2.sign, power e1 e2, b⟩ alike low high
  · exact addAligned_opposite _ a b alike

/-- The normaliser sees no difference between two such numbers. -/
theorem Added.fltNrm_eq {r' : FltArith} (added : Added sum exp r) (added' : Added sum exp r') :
    fltNrm r = fltNrm r' := by
  cases added with
  | @fits sign m same =>
    cases added' with
    | @fits sign' m' same' =>
      obtain ⟨magnitudes, signs⟩ := signed_inj (same.trans same'.symm)
      have mantissas := FltMantissa.value_inj magnitudes
      subst mantissas
      by_cases empty : m = FltMantissa.zero
      · rw [@fltNrm_zero ⟨sign, exp, m⟩ empty, @fltNrm_zero ⟨sign', exp, m⟩ empty]
      · rw [signs (mt FltMantissa.value_eq_zero.mp empty)]
    | @carried sign' m' n large same' half =>
      obtain ⟨magnitudes, -⟩ := signed_inj (same.trans same'.symm)
      exact absurd m.value_lt (by omega)
  | @carried sign m n large same half =>
    cases added' with
    | @fits sign' m' same' =>
      obtain ⟨magnitudes, -⟩ := signed_inj (same.trans same'.symm)
      exact absurd m'.value_lt (by omega)
    | @carried sign' m' n' large' same' half' =>
      obtain ⟨magnitudes, signs⟩ := signed_inj (same.trans same'.symm)
      rw [FltMantissa.value_inj (half.trans (magnitudes ▸ half'.symm)), signs (by omega)]

/-! ## Normalising and checking -/

theorem value_fltNrm {e : FltArith} (low : -32000 ≤ e.exp) (high : e.exp ≤ 32000) :
    value (fltNrm e) = value e := by
  by_cases empty : e.mantissa = FltMantissa.zero
  · rw [fltNrm_zero empty, value_of_zero empty]
    exact value_of_zero rfl
  · obtain ⟨s, most, mantissa, -, sign, exponent⟩ := fltNrm_spec empty
    have moved : (fltNrm e).exp = e.exp - s := by
      rw [exponent]
      split
      next none => omega
      next => exact toShort_of_range (by omega) (by omega)
    unfold value
    rw [mantissa, sign, moved, dyadic_shift]
    ring_nf

theorem fltNrm_of_normalized (normal : e.mantissa.Normalized) : fltNrm e = e := by
  have high := FltMantissa.normalized_iff_high.mp normal
  have someHigh : e.m1 ≠ 0 := by
    intro empty
    have zero : e.mantissa.h32.toNat = 0 := congrArg UInt32.toNat empty
    omega
  have set : e.m1 &&& 0x80000000 ≠ 0 := mt (top_and_eq_zero e.m1).mp (not_lt.mpr high)
  have someBit : e.m1 ||| e.m2 ≠ 0 := by
    refine mt FltMantissa.or_eq_zero.mp fun empty => someHigh ?_
    rw [FltArith.m1, empty]
    rfl
  rw [fltNrm, if_neg someBit, if_neg someHigh, nrmBits, if_neg set]

theorem fltNrm_formed (e : FltArith) : fltNrm e = zero ∨ (fltNrm e).mantissa.Normalized := by
  by_cases empty : e.mantissa = FltMantissa.zero
  · exact Or.inl (fltNrm_zero empty)
  · obtain ⟨s, -, -, normal, -⟩ := fltNrm_spec empty
    exact Or.inr normal

theorem fltChk_of_ok (ok : (fltChk e .ok).2 = .ok) : (fltChk e .ok).1 = e := by
  by_cases high : extMax ≤ e.exp
  · rw [fltChk_of_high _ high] at ok
    cases ok
  · by_cases low : e.exp ≤ extMin
    · rw [fltChk_of_low _ low] at ok
      cases ok
    · rw [fltChk_of_range _ (not_le.mp low) (not_le.mp high)]

/-! ## The sum of two numbers -/

theorem inRange_of_canonical (canonical : e.Canonical) : InRange e := by
  rcases canonical with rfl | ⟨-, range⟩
  · exact ⟨by decide, by decide⟩
  · exact range

theorem power_inRange (range1 : InRange e1) (range2 : InRange e2) :
    extMin < power e1 e2 ∧ power e1 e2 < extMax :=
  ⟨lt_of_lt_of_le range1.1 (le_max_left _ _), max_lt range1.2 range2.2⟩

theorem power_comm (e1 e2 : FltArith) : power e1 e2 = power e2 e1 := max_comm _ _

theorem alignedSum_comm (e1 e2 : FltArith) : alignedSum e1 e2 = alignedSum e2 e1 := by
  unfold alignedSum
  rw [power_comm, add_comm]

theorem fltAdd_eq (nonzero1 : e1.mantissa ≠ FltMantissa.zero)
    (nonzero2 : e2.mantissa ≠ FltMantissa.zero) :
    fltAdd e1 e2 =
      fltChk (fltNrm (addAligned (alignExponents e1 e2).1 (alignExponents e1 e2).2)) .ok := by
  rw [fltAdd, if_neg (mt FltMantissa.or_eq_zero.mp nonzero2),
    if_neg (mt FltMantissa.or_eq_zero.mp nonzero1)]

theorem fltAdd_comm (canonical1 : e1.Canonical) (canonical2 : e2.Canonical) :
    fltAdd e1 e2 = fltAdd e2 e1 := by
  by_cases empty1 : e1.mantissa = FltMantissa.zero
  · by_cases empty2 : e2.mantissa = FltMantissa.zero
    · rw [Held.eq_zero (Or.inl canonical1) empty1, Held.eq_zero (Or.inl canonical2) empty2]
    · rw [fltAdd_zero_left empty2 empty1, fltAdd_zero_right empty1]
  · by_cases empty2 : e2.mantissa = FltMantissa.zero
    · rw [fltAdd_zero_left empty1 empty2, fltAdd_zero_right empty2]
    · have forward := addAligned_added (inRange_of_canonical canonical1) (inRange_of_canonical canonical2)
      have backward := addAligned_added (inRange_of_canonical canonical2) (inRange_of_canonical canonical1)
      rw [alignedSum_comm, power_comm] at backward
      rw [fltAdd_eq empty1 empty2, fltAdd_eq empty2 empty1, forward.fltNrm_eq backward]

/-! ## The error -/

theorem signed_aligned_self (e : FltArith) :
    signed e.sign (aligned e.exp e) * unit e.exp = value e := by
  rw [aligned_self, value_eq]

theorem alignedSum_error_of_le (below : e1.exp ≤ e2.exp) :
    |alignedSum e1 e2 * unit (power e1 e2) - (value e1 + value e2)| < unit (power e1 e2) := by
  have lost := aligned_error below
  unfold alignedSum
  rw [show power e1 e2 = e2.exp from max_eq_right below]
  push_cast
  rw [add_mul, signed_aligned_self, add_sub_add_right_eq_sub]
  exact lost

theorem alignedSum_error (e1 e2 : FltArith) :
    |alignedSum e1 e2 * unit (power e1 e2) - (value e1 + value e2)| < unit (power e1 e2) := by
  rcases le_total e1.exp e2.exp with below | above
  · exact alignedSum_error_of_le below
  · have swapped := alignedSum_error_of_le above
    rwa [alignedSum_comm, power_comm, add_comm (value e2)] at swapped

theorem alignedSum_equal (equal : e1.exp = e2.exp) :
    alignedSum e1 e2 * unit (power e1 e2) = value e1 + value e2 := by
  have self : power e1 e2 = e2.exp := max_eq_right equal.le
  unfold alignedSum
  push_cast
  rw [self, add_mul, signed_aligned_self, ← equal, signed_aligned_self]

theorem carries_iff_sum (range1 : InRange e1) (range2 : InRange e2) :
    Carries e1 e2 ↔ 2 ^ 64 ≤ |alignedSum e1 e2| := by
  have bound1 := aligned_lt (power e1 e2) e1
  have bound2 := aligned_lt (power e1 e2) e2
  rw [carries_iff range1 range2]
  unfold alignedSum
  by_cases alike : e1.sign = e2.sign
  · rw [alike, signed_add, ← Nat.cast_add, abs_signed, and_iff_right rfl]
    omega
  · have other : e1.sign = !e2.sign := Bool.eq_not_of_ne alike
    rw [other, signed_neg, neg_add_eq_sub, ← signed_sub]
    refine iff_of_false (fun both => alike (other.trans both.1)) (not_le.mpr ?_)
    exact_mod_cast abs_signed_sub_lt e2.sign bound2 bound1

theorem Added.value_fits (added : Added sum exp r) (small : ¬ 2 ^ 64 ≤ |sum|) :
    value r = sum * unit exp := by
  cases added with
  | fits same => rw [value_mk, same]
  | carried large same half =>
    rw [← same, abs_signed] at small
    omega

/-- With a carry the last bit is lost, and bit 63 is set. -/
theorem Added.value_carried (added : Added sum exp r) (large : 2 ^ 64 ≤ |sum|) :
    |value r - sum * unit exp| ≤ unit exp ∧ r.exp = exp + 1 ∧ r.mantissa.Normalized := by
  cases added with
  | @fits sign m same =>
    have bound := m.value_lt
    rw [← same, abs_signed] at large
    omega
  | @carried sign m n atLeast same half =>
    have normal : m.Normalized := by
      unfold FltMantissa.Normalized
      omega
    refine ⟨?_, rfl, normal⟩
    · obtain ⟨rest, few, rfl⟩ : ∃ rest ≤ 1, n = 2 * m.value + rest :=
        ⟨n % 2, by omega, by omega⟩
      have difference : value ⟨sign, exp + 1, m⟩ - sum * unit exp =
          -(signed sign rest * unit exp) := by
        rw [value_mk, unit_succ, ← same]
        exact signed_halved ..
      rw [difference, abs_neg, abs_mul, ← Int.cast_abs, abs_signed, abs_of_pos (unit_pos _)]
      exact mul_le_of_le_one_left (unit_pos _).le (by exact_mod_cast few)

theorem Added.value_fltNrm_fits (added : Added sum exp r) (low : extMin < exp) (high : exp < extMax)
    (small : ¬ 2 ^ 64 ≤ |sum|) : value (fltNrm r) = sum * unit exp := by
  unfold extMin at low
  unfold extMax at high
  have range : -32000 ≤ r.exp ∧ r.exp ≤ 32000 := by
    cases added with
    | fits same => exact ⟨by dsimp only; omega, by dsimp only; omega⟩
    | carried atLeast same half => exact ⟨by dsimp only; omega, by dsimp only; omega⟩
  exact (value_fltNrm range.1 range.2).trans (added.value_fits small)

theorem accurate_of_eq {res : FltArith} {exact : ℚ} (same : value res = exact)
    (formed : res = zero ∨ res.mantissa.Normalized) : Accurate e1 e2 exact res where
  error := by
    rw [same, sub_self, abs_zero]
    exact unit_pos _
  uncarried _ := by
    rw [same, sub_self, abs_zero]
    exact unit_pos _
  equal _ _ := same
  formed := formed

theorem fltNrm_accurate (range1 : InRange e1) (range2 : InRange e2) :
    Accurate e1 e2 (value e1 + value e2)
      (fltNrm (addAligned (alignExponents e1 e2).1 (alignExponents e1 e2).2)) := by
  have added := addAligned_added range1 range2
  have lost := alignedSum_error e1 e2
  have carries := carries_iff_sum range1 range2
  obtain ⟨low, high⟩ := power_inRange range1 range2
  generalize addAligned (alignExponents e1 e2).1 (alignExponents e1 e2).2 = r at added ⊢
  by_cases large : 2 ^ 64 ≤ |alignedSum e1 e2|
  · obtain ⟨dropped, exponent, normal⟩ := added.value_carried large
    have kept : fltNrm r = r := fltNrm_of_normalized normal
    rw [kept]
    refine ⟨?_, fun none => absurd (carries.mpr large) none,
      fun _ none => absurd (carries.mpr large) none, Or.inr normal⟩
    rw [exponent, max_eq_right (by omega), unit_succ]
    calc |value r - (value e1 + value e2)|
        ≤ |value r - alignedSum e1 e2 * unit (power e1 e2)| +
            |alignedSum e1 e2 * unit (power e1 e2) - (value e1 + value e2)| := abs_sub_le _ _ _
      _ < 2 * unit (power e1 e2) := by linarith
  · have kept := added.value_fltNrm_fits low high large
    refine ⟨?_, fun _ => ?_, fun equal _ => ?_, fltNrm_formed r⟩
    · rw [kept]
      exact lost.trans_le (unit_le (le_max_left _ _))
    · rw [kept]
      exact lost
    · rw [kept]
      exact alignedSum_equal equal

theorem fltAdd_accurate (canonical1 : e1.Canonical) (canonical2 : e2.Canonical)
    (ok : (fltAdd e1 e2).2 = .ok) : Accurate e1 e2 (value e1 + value e2) (fltAdd e1 e2).1 := by
  by_cases empty2 : e2.mantissa = FltMantissa.zero
  · rw [fltAdd_zero_right empty2]
    refine accurate_of_eq ?_ (canonical1.imp_right And.left)
    rw [value_of_zero empty2, add_zero]
  · by_cases empty1 : e1.mantissa = FltMantissa.zero
    · rw [fltAdd_zero_left empty2 empty1]
      refine accurate_of_eq ?_ (canonical2.imp_right And.left)
      rw [value_of_zero empty1, zero_add]
    · rw [fltAdd_eq empty1 empty2] at ok ⊢
      rw [fltChk_of_ok ok]
      exact fltNrm_accurate (inRange_of_canonical canonical1) (inRange_of_canonical canonical2)

theorem difference_accurate {x y : FltArith} (xCanonical : x.Canonical) (yCanonical : y.Canonical)
    (ok : (fltAdd x y.negate).2 = .ok) :
    Accurate x y.negate (value x - value y) (fltAdd x y.negate).1 := by
  by_cases empty : y.mantissa = FltMantissa.zero
  · rw [@fltAdd_zero_right x y.negate empty]
    refine accurate_of_eq ?_ (xCanonical.imp_right And.left)
    rw [value_of_zero empty, sub_zero]
  · rw [sub_eq_add_neg, ← value_negate]
    exact fltAdd_accurate xCanonical (canonical_negate yCanonical empty) ok

/-- `flt_add` and `flt_sub`, as long as the result stays in range: it is off by
less than a unit in the last place of the operand with the larger exponent.  When
the addition carries out of bit 63 the exponent of the result is one larger, and
so is that of the unit. -/
theorem sums_accurate (x y : FltArith) (xCanonical : x.Canonical) (yCanonical : y.Canonical) :
    ((fltAdd x y).2 = .ok → Accurate x y (value x + value y) (fltAdd x y).1 ∧
      value (fltAdd x y).1 = value (fltAdd y x).1) ∧
    ∀ (st : Store) (e1 e2 res : Nat), st.cells e1 = some x → st.cells e2 = some y → e1 ≠ e2 →
      e2 ≠ res → ∃ st' z, fltSub st e1 e2 res = some st' ∧ st'.cells res = some z ∧
        (st'.status = .ok → Accurate x y.negate (value x - value y) z) := by
  refine ⟨fun ok => ⟨fltAdd_accurate xCanonical yCanonical ok, ?_⟩, ?_⟩
  · rw [fltAdd_comm xCanonical yCanonical]
  · intro st e1 e2 res left right apart kept
    refine ⟨_, (fltAdd x y.negate).1, fltSub_eq left right kept, ?_, fun ok => ?_⟩
    · rw [if_neg apart]
      exact Store.write_cells_self ..
    · rw [if_neg apart] at ok
      exact difference_accurate xCanonical yCanonical ok

def almostFour : FltArith := ⟨false, 1, ⟨0xFFFFFFFF, 0xFFFFFFFE⟩⟩

def almostTwo : FltArith := ⟨false, 0, ⟨0xFFFFFFFF, 0xFFFFFFFF⟩⟩

/-- Two numbers whose sum carries. -/
theorem almostFour_add_almostTwo :
    Accurate almostFour almostTwo (value almostFour + value almostTwo)
        (fltAdd almostFour almostTwo).1 ∧
      value (fltAdd almostFour almostTwo).1 = value (fltAdd almostTwo almostFour).1 :=
  (sums_accurate almostFour almostTwo (by decide) (by decide)).1 (by decide)

/-- The addition carries, and both the aligning and the carry lose a bit: the
sum is off by one and a half units. -/
theorem carry_loses_two_bits :
    ¬ ∀ x y : FltArith, x.Canonical → y.Canonical → (fltAdd x y).2 = .ok →
      |value (fltAdd x y).1 - (value x + value y)| < unit (power x y) := by
  intro within
  have result : fltAdd almostFour almostTwo =
      (⟨false, 2, ⟨0xBFFFFFFF, 0xFFFFFFFE⟩⟩, .ok) := by decide
  have error := within almostFour almostTwo (by decide) (by decide) (by rw [result])
  rw [result] at error
  have exponent : power almostFour almostTwo = 1 := by decide
  rw [exponent] at error
  simp only [value, unit, dyadic, FltMantissa.value, almostFour, almostTwo,
    UInt32.reduceToNat] at error
  norm_num at error

end AckFormal.Flt.Sums
