import AckFormal.Fp.Multiplication

/-!
# Division of extended numbers

`div_ext` divides one bit at a time: the quotient is shifted to the left, and
the divisor is taken from the dividend where it fits.  When nothing remains the
loop ends early, and the bits it did not come to are shifted in afterwards.
This is the version without `USE_DIVIDE`, which no build defines.
-/

namespace AckFormal.Fp.Division

open Flt.Mantissa Flt.Number Flt.Operations Extended Fp.Compact Arithmetic Multiplication

/-- The comparison and subtraction of one step: the dividend that remains, and
the quotient with its next bit. -/
def divStep (e2 e1 result : B64) : B64 × B64 :=
  let result := b64Lsft result
  if Exceeds e1 e2 then (e1, result)
  else (subtractMantissa e1 e2, ⟨result.h32, result.l32 + 1⟩)

/-- The loop with `count` steps to go, over the dividend and the quotient so far;
it returns the final `count`, which is -1 after the last step. -/
def divLoop (e2 : B64) : Nat → B64 → B64 → Int × B64
  | 0, _, result => (-1, result)
  | count + 1, e1, result =>
    let step := divStep e2 e1 result
    if step.1.h32 ||| step.1.l32 ≠ 0 then divLoop e2 count (b64Lsft step.1) step.2
    else (count, step.2)

def divFinish (count : Int) (result : B64) : B64 :=
  if count > 0 then
    let moved := if count > 31 then (count - 32, (⟨result.l32, 0⟩ : B64)) else (count, result)
    let n := UInt32.ofNat moved.1.toNat
    let h := if moved.2.h32 ≠ 0 then moved.2.h32 <<< n else moved.2.h32
    if moved.2.l32 ≠ 0 then ⟨h ||| moved.2.l32 >>> (32 - n), moved.2.l32 <<< n⟩
    else ⟨h, moved.2.l32⟩
  else result

def divRange (e1 : EXTEND) : EXTEND × List Trap :=
  if e1.exp < EXT_MIN then ({ e1 with exp := EXT_MIN, mantissa := ⟨0, 0⟩ }, [.EFUNFL])
  else if e1.exp ≥ EXT_MAX then ({ e1 with exp := EXT_MAX, mantissa := ⟨0, 0⟩ }, [.EFOVFL])
  else (e1, [])

def quotient (e1 e2 : B64) : B64 :=
  let ended := divLoop (b64Rsft e2) 64 (b64Rsft e1) ⟨0, 0⟩
  divFinish ended.1 ended.2

def divExt (e1 e2 : EXTEND) : EXTEND × List Trap :=
  if e2.m1 ||| e2.m2 = 0 then ({ e1 with exp := EXT_MAX, mantissa := ⟨0, 0⟩ }, [.EFDIVZ])
  else if e1.m1 ||| e1.m2 = 0 then ({ e1 with exp := 0 }, [])
  else
    divRange (nrmExt ⟨e1.sign ^^^ e2.sign, toShort (toShort (e1.exp + 1) - toShort (e2.exp + 1)),
      quotient e1.mantissa e2.mantissa⟩)

/-! ## The loop -/

/-- The shift tests each word first, which makes no difference. -/
theorem tested_shift (m : B64) (n : UInt32) :
    (if m.l32 ≠ 0 then
      (⟨(if m.h32 ≠ 0 then m.h32 <<< n else m.h32) ||| m.l32 >>> (32 - n), m.l32 <<< n⟩ : B64)
    else ⟨if m.h32 ≠ 0 then m.h32 <<< n else m.h32, m.l32⟩) = fltB64Sft.shiftLeft m n := by
  have tested : (if m.h32 ≠ 0 then m.h32 <<< n else m.h32) = m.h32 <<< n := by
    split
    next => rfl
    next zero =>
      rw [not_not.mp zero]
      refine UInt32.toNat_inj.mp ?_
      simp
  rw [tested]
  rfl

/-- Shifting the rest of the way does not lose bits of a quotient that is short
enough. -/
theorem divFinish_value {result : B64} {count : Nat} (small : count < 64)
    (fits : result.value * 2 ^ count < 2 ^ 64) :
    (divFinish count result).value = result.value * 2 ^ count := by
  unfold divFinish
  by_cases positive : (count : Int) > 0
  · rw [if_pos positive]
    rw [tested_shift]
    by_cases word : (count : Int) > 31
    · -- the high word is still empty
      have low := result.l32.toNat_lt
      have high : result.value < 2 ^ 32 := by
        by_contra large
        have wide : 2 ^ 32 ≤ 2 ^ count := Nat.pow_le_pow_right (by decide) (by omega)
        have product := Nat.mul_le_mul (not_lt.mp large) wide
        omega
      have moved : (⟨result.l32, 0⟩ : B64).value = result.value * 2 ^ 32 := by
        unfold FltMantissa.value at high ⊢
        dsimp only
        rw [UInt32.toNat_zero]
        omega
      have places : ((count : Int) - 32).toNat = count - 32 := by omega
      rw [if_pos word]
      rw [places]
      rcases Nat.eq_zero_or_pos (count - 32) with none | some
      · have exact : count = 32 := by omega
        rw [none, exact, ← moved]
        unfold fltB64Sft.shiftLeft FltMantissa.value
        rw [if_neg (not_not.mpr rfl), toNat_shiftLeft_ofNat _ (by decide)]
        dsimp only
        omega
      · have total : 2 ^ count = 2 ^ 32 * 2 ^ (count - 32) := by
          rw [← pow_add]
          congr 1
          omega
        rw [total, ← Nat.mul_assoc] at fits ⊢
        rw [shiftLeft_value _ some (by omega), moved]
        exact Nat.mod_eq_of_lt fits
    · rw [if_neg word]
      rw [Int.toNat_natCast, shiftLeft_value _ (by omega) (by omega)]
      exact Nat.mod_eq_of_lt fits
  · have zero : count = 0 := by omega
    rw [if_neg positive, zero, pow_zero, Nat.mul_one]

theorem increment_value {d : B64} (even : d.value % 2 = 0) :
    (⟨d.h32, d.l32 + 1⟩ : B64).value = d.value + 1 := by
  have low := d.l32.toNat_lt
  have one : (1 : UInt32).toNat = 1 := rfl
  have next : (d.l32 + 1).toNat = d.l32.toNat + 1 := by
    rw [UInt32.toNat_add, one]
    unfold FltMantissa.value at even
    omega
  unfold FltMantissa.value
  rw [next]
  exact (Nat.add_assoc _ _ 1).symm

theorem divStep_value {e2 e1 result : B64} (remainder : e1.value < 2 * e2.value)
    (room : result.value < 2 ^ 63) :
    (divStep e2 e1 result).1.value < e2.value ∧
      (divStep e2 e1 result).2.value ≤ 2 * result.value + 1 ∧
      (divStep e2 e1 result).2.value * e2.value + (divStep e2 e1 result).1.value =
        2 * (result.value * e2.value) + e1.value := by
  have doubled : (b64Lsft result).value = 2 * result.value := by
    rw [b64Lsft_value, Nat.mul_comm]
    exact Nat.mod_eq_of_lt (by omega)
  have next := increment_value (d := b64Lsft result) (by omega)
  rw [doubled] at next
  unfold divStep
  by_cases exceeds : Exceeds e1 e2
  · rw [if_pos exceeds]
    rw [doubled]
    refine ⟨(exceeds_iff _ _).mp exceeds, Nat.le_succ _, ?_⟩
    rw [Nat.mul_assoc]
  · have fits := not_lt.mp (mt (exceeds_iff _ _).mpr exceeds)
    rw [if_neg exceeds]
    rw [next, subtractMantissa_value fits]
    refine ⟨by omega, le_rfl, ?_⟩
    rw [Nat.add_mul, Nat.one_mul, Nat.mul_assoc, Nat.add_assoc, Nat.add_sub_cancel' fits]

/-- The invariant of the loop: twice the quotient times the divisor and the
dividend that remains are the dividend so far. -/
theorem divLoop_value {e2 : B64} (small : e2.value < 2 ^ 63) (count : Nat) (places : count ≤ 64)
    (e1 result : B64) (remainder : e1.value < 2 * e2.value)
    (room : (result.value + 1) * 2 ^ count ≤ 2 ^ 64) :
    2 * ((divFinish (divLoop e2 count e1 result).1 (divLoop e2 count e1 result).2).value *
        e2.value) ≤ (2 * (result.value * e2.value) + e1.value) * 2 ^ count ∧
      (2 * (result.value * e2.value) + e1.value) * 2 ^ count <
        2 * (((divFinish (divLoop e2 count e1 result).1 (divLoop e2 count e1 result).2).value + 1) *
          e2.value) := by
  induction count generalizing e1 result with
  | zero =>
    have kept : divFinish (divLoop e2 0 e1 result).1 (divLoop e2 0 e1 result).2 = result := by
      rfl
    rw [kept, pow_zero, Nat.mul_one]
    refine ⟨Nat.le_add_right _ _, ?_⟩
    rw [Nat.add_mul, Nat.one_mul, Nat.mul_add]
    exact Nat.add_lt_add_left remainder _
  | succ count ih =>
    have half : (result.value + 1) * 2 ^ 1 ≤ 2 ^ 64 :=
      (Nat.mul_le_mul_left _ (Nat.pow_le_pow_right (by decide) (by omega))).trans room
    obtain ⟨below, bits, conserved⟩ := divStep_value remainder (show result.value < 2 ^ 63 by omega)
    rw [divLoop]
    generalize divStep e2 e1 result = step at below bits conserved ⊢
    obtain ⟨rest, next⟩ := step
    dsimp only at below bits conserved ⊢
    have nextRoom : (next.value + 1) * 2 ^ count ≤ 2 ^ 64 := by
      refine le_trans ?_ room
      rw [pow_succ', ← Nat.mul_assoc]
      exact Nat.mul_le_mul_right _ (by omega)
    rw [pow_succ', ← conserved]
    split
    next more =>
      have doubled : (b64Lsft rest).value = rest.value * 2 := by
        rw [b64Lsft_value]
        exact Nat.mod_eq_of_lt (by omega)
      have later := ih (by omega) (b64Lsft rest) next (by omega) nextRoom
      rw [doubled] at later
      have same : (next.value * e2.value + rest.value) * (2 * 2 ^ count) =
          (2 * (next.value * e2.value) + rest.value * 2) * 2 ^ count := by ring
      rw [same]
      exact later
    next ended =>
      -- nothing remains, and the bits not come to are zeros
      have none : rest.value = 0 :=
        FltMantissa.value_eq_zero.mpr (FltMantissa.or_eq_zero.mp (not_not.mp ended))
      have fits : next.value * 2 ^ count < 2 ^ 64 := by
        refine lt_of_lt_of_le ?_ nextRoom
        exact Nat.mul_lt_mul_of_pos_right (Nat.lt_succ_self _) (Nat.two_pow_pos count)
      rw [divFinish_value (by omega) fits, none, Nat.add_zero]
      have same : next.value * e2.value * (2 * 2 ^ count) =
          2 * (next.value * 2 ^ count * e2.value) := by ring
      rw [same]
      refine ⟨le_rfl, ?_⟩
      rw [Nat.add_mul, Nat.one_mul, Nat.mul_add]
      exact Nat.lt_add_of_pos_right (by omega)

/-- The mantissa of the quotient is the integer part of the quotient in units of
its last bit. -/
theorem quotient_value {e1 e2 : B64} (normal1 : 2 ^ 63 ≤ e1.value) (normal2 : 2 ^ 63 ≤ e2.value)
    (grid1 : ∃ k, e1.value = k * 2 ^ 11) (grid2 : ∃ k, e2.value = k * 2 ^ 11) :
    (quotient e1 e2).value * e2.value ≤ e1.value * 2 ^ 63 ∧
      e1.value * 2 ^ 63 < ((quotient e1 e2).value + 1) * e2.value := by
  have bound1 := e1.value_lt
  have bound2 := e2.value_lt
  -- halving the operands drops no bit
  have half1 : 2 * (b64Rsft e1).value = e1.value := by
    obtain ⟨k, value⟩ := grid1
    rw [b64Rsft_value]
    omega
  have half2 : 2 * (b64Rsft e2).value = e2.value := by
    obtain ⟨k, value⟩ := grid2
    rw [b64Rsft_value]
    omega
  have zero : (⟨0, 0⟩ : B64).value = 0 := rfl
  have small : (b64Rsft e2).value < 2 ^ 63 := by omega
  obtain ⟨low, high⟩ := divLoop_value small 64 le_rfl (b64Rsft e1) ⟨0, 0⟩
    (by omega) (by rw [zero]; norm_num)
  change 2 * ((quotient e1 e2).value * _) ≤ _ at low
  change _ < 2 * (((quotient e1 e2).value + 1) * _) at high
  generalize quotient e1 e2 = q at low high ⊢
  rw [zero] at low high
  have scale : (2 * (0 * (b64Rsft e2).value) + (b64Rsft e1).value) * 2 ^ 64 =
      e1.value * 2 ^ 63 := by
    rw [← half1]
    ring
  have left : 2 * (q.value * (b64Rsft e2).value) = q.value * e2.value := by
    rw [← half2]
    ring
  have right : 2 * ((q.value + 1) * (b64Rsft e2).value) = (q.value + 1) * e2.value := by
    rw [← half2]
    ring
  rw [scale, left] at low
  rw [scale, right] at high
  exact ⟨low, high⟩

theorem divRange_inside {e : EXTEND} (low : -16000 ≤ e.exp) (high : e.exp ≤ 16000) :
    divRange e = (e, []) := by
  unfold divRange EXT_MAX EXT_MIN
  rw [if_neg (by omega), if_neg (by omega)]

/-- A truncated quotient of two normalized mantissas, normalised. -/
theorem truncated_near {a b q s : Nat} (normalA : 2 ^ 63 ≤ a) (normalB : 2 ^ 63 ≤ b)
    (boundB : b < 2 ^ 64) (low : q * b ≤ a * 2 ^ 63) (high : a * 2 ^ 63 < (q + 1) * b)
    (reach : 2 ^ 63 ≤ q * 2 ^ s) (limit : q * 2 ^ s < 2 ^ 64) :
    Near (q * 2 ^ s) ((a : ℚ) * 2 ^ 63 / b * 2 ^ s) := by
  have positive : (0 : ℚ) < b := by
    have large : (2 : ℚ) ^ 63 ≤ b := by exact_mod_cast normalB
    linarith
  have lower : (q : ℚ) ≤ a * 2 ^ 63 / b := by
    rw [le_div_iff₀ positive]
    exact_mod_cast low
  have upper : (a : ℚ) * 2 ^ 63 / b < q + 1 := by
    rw [div_lt_iff₀ positive]
    exact_mod_cast high
  -- the quotient has 63 bits at least, so that it moves by one place at most
  have bits : 2 ^ 62 ≤ q := by
    by_contra small
    have product : (q + 1) * b ≤ 2 ^ 62 * 2 ^ 64 := Nat.mul_le_mul (by omega) boundB.le
    omega
  have shift : s ≤ 1 := by
    by_contra far
    have wide : 2 ^ 2 ≤ 2 ^ s := Nat.pow_le_pow_right (by decide) (by omega)
    have product := Nat.mul_le_mul bits wide
    omega
  have scale : (0 : ℚ) < 2 ^ s := by positivity
  have step : (2 : ℚ) ^ s ≤ 2 := by
    calc (2 : ℚ) ^ s ≤ 2 ^ 1 := pow_le_pow_right₀ (by norm_num) shift
      _ = 2 := by norm_num
  have below := mul_le_mul_of_nonneg_right lower scale.le
  have above := mul_lt_mul_of_pos_right upper scale
  have cast : ((q * 2 ^ s : Nat) : ℚ) = q * 2 ^ s := by push_cast; rfl
  have floor : (2 : ℚ) ^ 63 ≤ q * 2 ^ s := by
    exact_mod_cast reach
  refine ⟨?_, ?_, Or.inl (floor.trans below)⟩
  · rw [cast]
    linarith
  · rw [cast]
    linarith

/-- `div_ext` raises no trap on unpacked doubles when the divisor is not zero. -/
theorem divExt_delivers {e1 e2 : EXTEND} {v1 v2 : ℚ} (first : Unpacked e1 v1)
    (second : Unpacked e2 v2) (divisor : v2 ≠ 0) :
    Delivers (divExt e1 e2).1 (v1 / v2) ∧ (divExt e1 e2).2 = [] := by
  have low1 := first.low
  have low2 := second.low
  have high1 := first.high
  have high2 := second.high
  have nonzero2 : e2.mantissa ≠ FltMantissa.zero := mt second.eq_zero divisor
  unfold divExt
  rw [if_neg (mt FltMantissa.or_eq_zero.mp nonzero2)]
  by_cases empty1 : e1.mantissa = FltMantissa.zero
  · rw [if_pos (FltMantissa.or_eq_zero.mpr empty1), first.eq_zero empty1, zero_div]
    exact ⟨Or.inl ⟨empty1, rfl⟩, rfl⟩
  rw [if_neg (mt FltMantissa.or_eq_zero.mp empty1)]
  have normal1 : 2 ^ 63 ≤ e1.mantissa.value := first.normalized empty1
  have normal2 : 2 ^ 63 ≤ e2.mantissa.value := second.normalized nonzero2
  have exponent : toShort (toShort (e1.exp + 1) - toShort (e2.exp + 1)) = e1.exp - e2.exp := by
    have next1 : toShort (e1.exp + 1) = e1.exp + 1 := toShort_of_range (by omega) (by omega)
    have next2 : toShort (e2.exp + 1) = e2.exp + 1 := toShort_of_range (by omega) (by omega)
    rw [next1, next2, toShort_of_range (by omega) (by omega)]
    ring
  obtain ⟨low, high⟩ := quotient_value normal1 normal2 first.grid second.grid
  have boundB := e2.mantissa.value_lt
  rw [exponent]
  generalize quotient e1.mantissa e2.mantissa = q at low high ⊢
  have some : q ≠ FltMantissa.zero := by
    intro zero
    rw [zero, FltMantissa.value_zero] at high
    omega
  obtain ⟨s, bound, shifted, normal, kept, moved⟩ :=
    nrmExt_spec (e := ⟨e1.sign ^^^ e2.sign, e1.exp - e2.exp, q⟩) some (by dsimp only; omega)
      (by dsimp only; omega)
  have limit := (nrmExt ⟨e1.sign ^^^ e2.sign, e1.exp - e2.exp, q⟩).mantissa.value_lt
  dsimp only at shifted kept moved
  have reach : 2 ^ 63 ≤ _ := normal
  rw [shifted] at limit reach
  have near := truncated_near normal1 normal2 boundB low high reach limit
  have approximates : Approximates (nrmExt ⟨e1.sign ^^^ e2.sign, e1.exp - e2.exp, q⟩)
      (v1 / v2) := by
    refine ⟨normal, by omega, by omega,
      (e1.mantissa.value : ℚ) * 2 ^ 63 / e2.mantissa.value * 2 ^ s, ?_, ?_⟩
    · rw [shifted]
      exact near
    · rw [kept, EXTEND.unit, moved, ← first.value, ← second.value, EXTEND.value, EXTEND.value,
        EXTEND.unit, EXTEND.unit]
      have scale : (2 : ℚ) ^ (e1.exp - 63) =
          2 ^ (e1.exp - e2.exp - s - 63) * 2 ^ s * 2 ^ 63 * 2 ^ (e2.exp - 63) := by
        rw [← zpow_natCast (2 : ℚ) s, ← zpow_natCast (2 : ℚ) 63, ← zpow_add₀ (by norm_num),
          ← zpow_add₀ (by norm_num), ← zpow_add₀ (by norm_num)]
        ring_nf
      have magnitude : (e1.mantissa.value : ℚ) * 2 ^ (e1.exp - 63) /
          (e2.mantissa.value * 2 ^ (e2.exp - 63)) =
          e1.mantissa.value * 2 ^ 63 / e2.mantissa.value * 2 ^ s *
            2 ^ (e1.exp - e2.exp - s - 63) := by
        rw [scale]
        field_simp
      rw [← magnitude]
      rcases first.sign with sign1 | sign1 <;> rcases second.sign with sign2 | sign2 <;>
        simp [EXTEND.signed, sign1, sign2, neg_div, div_neg]
  rw [divRange_inside approximates.low approximates.high]
  exact ⟨Or.inr approximates, rfl⟩

end AckFormal.Fp.Division
