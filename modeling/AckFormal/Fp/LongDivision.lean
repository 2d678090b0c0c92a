import AckFormal.Fp.Division
import AckFormal.Flt.Quotients

/-!
# Division by digits

`div_ext` as it is compiled with `USE_DIVIDE`.  It divides in base 65536 with
the loops of `flt_div`: the dividend, shifted by one bit, stands in `u[0..4]`
with zeros behind it, the divisor in `v[1..4]`.  On operands without the bits
that halving drops it agrees with the division bit by bit.
-/

namespace AckFormal.Fp.LongDivision

open Flt.Mantissa Flt.Number Extended Fp.Compact Division
open Flt.Division (correctEstimate multiplySubtract addBack lastDigit)

/-- The estimate of one digit of the quotient; here there is no case for a
divisor that starts with 1. -/
def estimate (u v : Nat → Nat) (j : Nat) : Nat :=
  let temp := u j * 2 ^ 16 + u (j + 1)
  let q_est := if u j ≥ v 1 then 0xFFFF else temp / v 1
  correctEstimate v (u (j + 2)) q_est ((temp + (2 ^ 32 - q_est * v 1 % 2 ^ 32)) % 2 ^ 32)

/-- The digit of the quotient at place `j`, and the digits that remain. -/
def divideDigit (v : Nat → Nat) (maxv j : Nat) (u : Nat → Nat) : Nat × (Nat → Nat) :=
  if u j = 0 ∧ u (j + 1) < v 1 then (0, u)
  else
    let q_est := estimate u v j
    if q_est ≠ 0 then
      let (u, k, borrow) := multiplySubtract q_est v j maxv u 0 0
      let k := k + borrow
      let borrow := u j < k
      let u := Function.update u j ((u j + 2 ^ 32 - k) % 2 ^ 16)
      if borrow then
        let (u, borrow) := addBack v j maxv u 0
        (q_est - 1, Function.update u j ((u j + borrow) % 2 ^ 16))
      else (q_est, u)
    else (0, u)

/-- The digits of the dividend, shifted to the right with `b64_rsft`. -/
def dividend (e1 : B64) (index : Nat) : Nat :=
  if index = 4 then e1.l32.toNat % 2 * 2 ^ 15 else fltSplit (b64Rsft e1) index

def divisor (e2 : B64) : Nat → Nat
  | 0 => 0
  | index + 1 => fltSplit e2 index

def quotientWords (e1 e2 : B64) : B64 :=
  let v := divisor e2
  let maxv := lastDigit v 4
  let (q0, u) := divideDigit v maxv 0 (dividend e1)
  let (q1, u) := divideDigit v maxv 1 u
  let (q2, u) := divideDigit v maxv 2 u
  let (q3, _) := divideDigit v maxv 3 u
  ⟨UInt32.ofNat (q0 * 2 ^ 16) ||| UInt32.ofNat q1, UInt32.ofNat (q2 * 2 ^ 16) ||| UInt32.ofNat q3⟩

def divExtUseDivide (e1 e2 : EXTEND) : EXTEND × List Trap :=
  if e2.m1 ||| e2.m2 = 0 then ({ e1 with exp := Multiplication.EXT_MAX, mantissa := ⟨0, 0⟩ }, [.EFDIVZ])
  else if e1.m1 ||| e1.m2 = 0 then ({ e1 with exp := 0 }, [])
  else
    divRange (nrmExt ⟨e1.sign ^^^ e2.sign, toShort (e1.exp - e2.exp),
      quotientWords e1.mantissa e2.mantissa⟩)

/-! ## The digits are those of `flt_div` -/

theorem estimate_eq (u v : Nat → Nat) (j : Nat) : estimate u v j = Flt.Division.estimate u v j := by
  unfold estimate Flt.Division.estimate
  by_cases one : v 1 = 1
  · rw [one]
    simp
  · simp [one]

theorem divideDigit_eq (v : Nat → Nat) (maxv j : Nat) (u : Nat → Nat) :
    divideDigit v maxv j u = Flt.Division.divideDigit v maxv j u := by
  unfold divideDigit Flt.Division.divideDigit
  rw [estimate_eq]
  simp only [ite_not]

theorem dividend_eq (e1 : B64) : dividend e1 = Flt.Division.dividend ⟨false, 0, e1⟩ := by
  have shifted : b64Rsft e1 = fltB64Sft e1 1 := by
    refine FltMantissa.value_inj ?_
    rw [b64Rsft_value]
    exact (fltB64Sft_right e1 (by decide : 1 ≤ 63)).symm
  unfold dividend Flt.Division.dividend
  rw [shifted]

theorem divisor_eq (e2 : B64) : divisor e2 = Flt.Division.divisor ⟨false, 0, e2⟩ := by
  funext index
  cases index with
  | zero => rfl
  | succ index => rfl

theorem quotientWords_eq (e1 e2 : B64) :
    quotientWords e1 e2 = Flt.Division.quotientWords ⟨false, 0, e1⟩ ⟨false, 0, e2⟩ := by
  unfold quotientWords Flt.Division.quotientWords
  simp only [divideDigit_eq, dividend_eq, divisor_eq]

/-! ## The two versions -/

theorem quotientWords_eq_quotient {e1 e2 : B64} (normal1 : e1.Normalized) (normal2 : e2.Normalized)
    (grid1 : ∃ k, e1.value = k * 2 ^ 11) (grid2 : ∃ k, e2.value = k * 2 ^ 11) :
    quotientWords e1 e2 = quotient e1 e2 := by
  have large : 2 ^ 63 ≤ e2.value := normal2
  have positive : 0 < e2.value := by omega
  obtain ⟨low, high⟩ := quotient_value normal1 normal2 grid1 grid2
  refine FltMantissa.value_inj ?_
  rw [quotientWords_eq, @Flt.Quotients.quotientWords_value ⟨false, 0, e1⟩ ⟨false, 0, e2⟩ normal2]
  refine le_antisymm ?_ ((Nat.le_div_iff_mul_le positive).mpr low)
  rw [Nat.mul_comm (_ + 1)] at high
  exact Nat.lt_succ_iff.mp (Nat.div_lt_of_lt_mul high)

theorem toShort_halved (a b : Int) : toShort (toShort (a + 1) - toShort (b + 1)) = toShort (a - b) := by
  unfold toShort
  omega

/-- Both versions of `div_ext` give the same sign, exponent and mantissa, and
raise the same trap. -/
theorem divExtUseDivide_eq {e1 e2 : EXTEND} (normal1 : e1.mantissa.Normalized)
    (normal2 : e2.mantissa.Normalized) (grid1 : e1.mantissa.value % 2 ^ 11 = 0)
    (grid2 : e2.mantissa.value % 2 ^ 11 = 0) : divExtUseDivide e1 e2 = divExt e1 e2 := by
  have multiple {m : B64} (grid : m.value % 2 ^ 11 = 0) : ∃ k, m.value = k * 2 ^ 11 :=
    ⟨m.value / 2 ^ 11, (Nat.div_mul_cancel (Nat.dvd_of_mod_eq_zero grid)).symm⟩
  unfold divExtUseDivide divExt
  rw [quotientWords_eq_quotient normal1 normal2 (multiple grid1) (multiple grid2), toShort_halved]

/-- A dividend below the divisor, where the quotient starts with a zero bit. -/
theorem four_sevenths_both :
    divExtUseDivide ⟨0, 2, ⟨0x80000000, 0⟩⟩ ⟨0x8000, 2, ⟨0xE0000000, 0⟩⟩ =
      divExt ⟨0, 2, ⟨0x80000000, 0⟩⟩ ⟨0x8000, 2, ⟨0xE0000000, 0⟩⟩ :=
  divExtUseDivide_eq (by decide) (by decide) (by decide) (by decide)

end AckFormal.Fp.LongDivision
