import AckFormal.Flt.Comparison
import Mathlib.Tactic.LinearCombination

/-!
# Integer and fraction part

`flt_modf` shifts the bits below the point out of the mantissa and back in as
zeros.  The subtraction that gives the fraction is one of equal exponents, so
that nothing is rounded.
-/

namespace AckFormal.Flt.IntegerParts

open Mantissa Number FltArith Operations Sequence Canonical Sums Comparison Lib.Truncation

structure Parts (x i f : FltArith) : Prop where
  whole : ∃ n : ℤ, value i = n
  smaller : |value i| ≤ |value x|
  wholeSign : value i = 0 ∨ i.sign = x.sign
  fraction : |value f| < 1
  fractionSign : value f = 0 ∨ f.sign = x.sign
  sum : value i + value f = value x

/-! ## Exact differences -/

variable {x : FltArith} {k : Nat}

/-- Numbers of one sign and exponent are subtracted exactly, away from the
bottom of the range. -/
theorem difference_exact {y : FltArith} (xNonzero : x.mantissa ≠ FltMantissa.zero)
    (yNonzero : y.mantissa ≠ FltMantissa.zero) (signs : x.sign = y.sign) (exps : x.exp = y.exp)
    (low : extMin + 63 < x.exp) (high : x.exp < extMax) :
    value (fltAdd x y.negate).1 = value x - value y := by
  have range1 : InRange x := ⟨lt_trans (by decide) low, high⟩
  have range2 : InRange y.negate := by
    change extMin < y.exp ∧ y.exp < extMax
    rw [← exps]
    exact range1
  have accurate := fltNrm_accurate range1 range2
  have added := addAligned_added range1 range2
  have opposite : x.sign ≠ y.negate.sign := by
    rw [signs]
    exact (Bool.not_ne_self y.sign).symm
  have uncarried : ¬ Carries x y.negate := fun carries => opposite carries.1
  have path := fltAdd_eq xNonzero (negate_nonzero yNonzero)
  have exponent : power x y.negate = x.exp := max_eq_left (show y.exp ≤ x.exp from exps.ge)
  rw [carries_iff_sum range1 range2] at uncarried
  rw [exponent] at added
  generalize addAligned (alignExponents x y.negate).1 (alignExponents x y.negate).2 = r
    at accurate added path
  have exact : value (fltNrm r) = value x - value y := by
    rw [accurate.equal exps (fun carries => opposite carries.1), value_negate, sub_eq_add_neg]
  rw [path, ← exact]
  by_cases empty : r.mantissa = FltMantissa.zero
  · rw [fltNrm_zero empty, fltChk_zero]
  · obtain ⟨s, most, -, -, -, moved⟩ := fltNrm_spec empty
    have kept : r.exp = x.exp := by
      cases added with
      | fits same => rfl
      | carried large same half =>
        rw [← same, abs_signed] at uncarried
        omega
    unfold extMin at low
    unfold extMax at high
    have range : extMin < (fltNrm r).exp ∧ (fltNrm r).exp < extMax := by
      unfold extMin extMax
      rw [moved, kept]
      split
      next => omega
      next =>
        rw [toShort_of_range (by omega) (by omega)]
        omega
    rw [fltChk_of_range _ range.1 range.2]

/-! ## The integer part -/

section

variable (count : x.exp + k = 63) (most : k ≤ 63)
include count most

theorem integerPart_value :
    (integerPart x).mantissa.value = x.mantissa.value / 2 ^ k * 2 ^ k := by
  have bound := x.mantissa.value_lt
  unfold integerPart
  rw [show 63 - x.exp = (k : Int) by omega, show x.exp - 63 = -(k : Int) by omega,
    fltB64Sft_left _ most, fltB64Sft_div, Nat.mod_eq_of_lt]
  exact lt_of_le_of_lt (Nat.div_mul_le_self _ _) bound

theorem value_integerPart :
    value (integerPart x) = (signed x.sign (x.mantissa.value / 2 ^ k : Nat) : Int) := by
  have sign : (integerPart x).sign = x.sign := rfl
  have exponent : (integerPart x).exp = x.exp := rfl
  unfold value
  rw [sign, exponent, integerPart_value count most, dyadic_shift, dyadic_eq_signed,
    show x.exp - 63 + (k : Int) = 0 by omega, zpow_zero, mul_one]

/-- The number is what the integer part leaves out more than it. -/
theorem value_sub_integerPart :
    value x - value (integerPart x) =
      signed x.sign (x.mantissa.value % 2 ^ k : Nat) * unit x.exp := by
  have whole := Nat.div_add_mod x.mantissa.value (2 ^ k)
  have scale : (1 : ℚ) = 2 ^ k * unit x.exp := by
    unfold unit
    rw [← zpow_natCast, ← zpow_add₀ (by norm_num), show (k : Int) + (x.exp - 63) = 0 by omega,
      zpow_zero]
  have split : signed x.sign x.mantissa.value =
      signed x.sign (x.mantissa.value / 2 ^ k : Nat) * 2 ^ k +
        signed x.sign (x.mantissa.value % 2 ^ k : Nat) := by
    rw [← signed_mul, signed_add, mul_comm]
    exact_mod_cast congrArg (fun n : Nat => signed x.sign n) whole.symm
  rw [value_integerPart count most, value_eq, split, Int.cast_add, Int.cast_mul, Int.cast_pow,
    Int.cast_ofNat]
  linear_combination -1 * (signed x.sign (x.mantissa.value / 2 ^ k : Nat) : ℚ) * scale

end

/-- A number with the value of a signed one has its sign. -/
theorem sign_of_signed {f : FltArith} {s : Bool} {n : Nat} {u : ℚ} (positive : 0 < u)
    (same : value f = signed s n * u) : value f = 0 ∨ f.sign = s := by
  by_cases empty : f.mantissa = FltMantissa.zero
  · exact Or.inl (value_of_zero empty)
  · refine Or.inr ?_
    have below : (0 : ℚ) ≤ (n : ℤ) * u := by positivity
    cases s with
    | false =>
      refine (value_pos empty).mp (lt_of_le_of_ne ?_ (Ne.symm (mt value_eq_zero.mp empty)))
      rw [same]
      exact below
    | true =>
      refine (value_neg empty).mp (lt_of_le_of_ne ?_ (mt value_eq_zero.mp empty))
      rw [same, signed_true]
      push_cast at below ⊢
      linarith

theorem integerPart_nonzero (count : x.exp + k = 63) (most : k ≤ 63)
    (normal : x.mantissa.Normalized) : (integerPart x).mantissa ≠ FltMantissa.zero := by
  have reaches : 2 ^ k ≤ x.mantissa.value :=
    le_trans (Nat.pow_le_pow_right (by decide) most) normal
  refine mt FltMantissa.value_eq_zero.mpr ?_
  rw [integerPart_value count most]
  exact (Nat.mul_pos (Nat.div_pos reaches (Nat.two_pow_pos k)) (Nat.two_pow_pos k)).ne'

theorem parts_inside (normal : x.mantissa.Normalized) (low : 0 ≤ x.exp) (high : x.exp < 63) :
    Parts x (integerPart x) (fltAdd x (integerPart x).negate).1 := by
  obtain ⟨k, count⟩ : ∃ k : Nat, x.exp + k = 63 := ⟨(63 - x.exp).toNat, by omega⟩
  have most : k ≤ 63 := by omega
  have exact : value (fltAdd x (integerPart x).negate).1 = value x - value (integerPart x) :=
    difference_exact (normalized_nonzero normal) (integerPart_nonzero count most normal) rfl rfl
      (lt_of_lt_of_le (by decide) low) (lt_trans high (by decide))
  have left := value_sub_integerPart count most
  refine ⟨⟨_, value_integerPart count most⟩, ?_, Or.inr rfl, ?_,
    sign_of_signed (unit_pos _) (exact.trans left), ?_⟩
  · rw [abs_value, abs_value]
    refine mul_le_mul_of_nonneg_right ?_ (unit_pos x.exp).le
    rw [integerPart_value count most]
    exact_mod_cast Nat.div_mul_le_self _ _
  · have lost := dyadic_dropped x.sign x.mantissa.value k (x.exp - 63)
    rw [exact, abs_sub_comm, value_integerPart count most]
    rwa [dyadic_eq_signed, show x.exp - 63 + (k : Int) = 0 by omega, zpow_zero, mul_one] at lost
  · rw [exact, add_sub_cancel]

theorem parts_below (low : x.exp < 0) : Parts x zero x where
  whole := ⟨0, value_of_zero rfl⟩
  smaller := by
    rw [@value_of_zero zero rfl, abs_zero]
    exact abs_nonneg _
  wholeSign := Or.inl (value_of_zero rfl)
  fraction := (abs_value_lt x).trans_le (zpow_le_one_of_nonpos₀ (by norm_num) (by omega))
  fractionSign := Or.inr rfl
  sum := by rw [@value_of_zero zero rfl, zero_add]

/-- A number without bits below the point is its own integer part. -/
theorem parts_above (high : 63 ≤ x.exp) : Parts x x zero where
  whole := by
    obtain ⟨n, distance⟩ : ∃ n : Nat, x.exp - 63 = n := ⟨(x.exp - 63).toNat, by omega⟩
    refine ⟨signed x.sign x.mantissa.value * 2 ^ n, ?_⟩
    rw [value_eq, unit, distance]
    push_cast
    rfl
  smaller := le_rfl
  wholeSign := Or.inr rfl
  fraction := by
    rw [@value_of_zero zero rfl, abs_zero]
    exact one_pos
  fractionSign := Or.inl (value_of_zero rfl)
  sum := by rw [@value_of_zero zero rfl, add_zero]

theorem parts_zero : Parts zero zero zero where
  whole := ⟨0, value_of_zero rfl⟩
  smaller := le_rfl
  wholeSign := Or.inr rfl
  fraction := by
    rw [@value_of_zero zero rfl, abs_zero]
    exact one_pos
  fractionSign := Or.inr rfl
  sum := by rw [@value_of_zero zero rfl, add_zero]

/-- `flt_modf` on three objects: the parts are exact. -/
theorem fltModf_exact (st : Store) (e ipart fpart : Nat) (x : FltArith)
    (holds : st.cells e = some x) (canonical : x.Canonical) (apartI : e ≠ ipart)
    (apartF : e ≠ fpart) (apart : ipart ≠ fpart) :
    ∃ st' i f, fltModf st e ipart fpart = some st' ∧ st'.cells ipart = some i ∧
      st'.cells fpart = some f ∧ Parts x i f := by
  unfold fltModf
  simp only [holds, Option.bind_eq_bind, Option.bind_some]
  by_cases low : x.exp < 0
  · rw [if_pos low]
    refine ⟨_, zero, x, rfl, Store.write_cells_self .., ?_, parts_below low⟩
    rw [Store.write_cells_of_ne _ _ apart.symm, Store.write_cells_self]
  · rw [if_neg low]
    by_cases high : x.exp ≥ 63
    · rw [if_pos high, Store.write_cells_of_ne _ _ apartF, holds, Option.bind_some]
      refine ⟨_, x, zero, rfl, Store.write_cells_self .., ?_, parts_above high⟩
      rw [Store.write_cells_of_ne _ _ apart.symm, Store.write_cells_self]
    · have left : (st.write ipart (integerPart x)).cells e = some x := by
        rw [Store.write_cells_of_ne _ _ apartI, holds]
      have right : (st.write ipart (integerPart x)).cells ipart = some (integerPart x) :=
        Store.write_cells_self ..
      rw [if_neg high, fltSub_eq left right apart, if_neg apartI]
      refine ⟨_, integerPart x, (fltAdd x (integerPart x).negate).1, rfl, ?_,
        Store.write_cells_self .., ?_⟩
      · exact (Store.write_cells_of_ne _ _ apart).trans right
      · rcases canonical with rfl | ⟨normal, -⟩
        · rw [integerPart_zero]
          exact parts_zero
        · exact parts_inside normal (not_lt.mp low) (not_le.mp high)

def minusTwoAndHalf : FltArith := ⟨true, 1, ⟨0xA0000000, 0⟩⟩

theorem minusTwoAndHalf_parts :
    ∃ st' i f, fltModf (Store.empty.write 0 minusTwoAndHalf) 0 1 2 = some st' ∧
      st'.cells 1 = some i ∧ st'.cells 2 = some f ∧ Parts minusTwoAndHalf i f :=
  fltModf_exact (Store.empty.write 0 minusTwoAndHalf) 0 1 2 minusTwoAndHalf
    (Store.write_cells_self ..) (by decide) (by decide) (by decide) (by decide)

end AckFormal.Flt.IntegerParts
