import AckFormal.Flt.Number

/-!
# The arithmetic operations

`flt_add`, `flt_mul`, `flt_div` and the conversions, as functions of the values
of their operands.  The C functions take pointers, and copy what they still need
before they write the result, so that the result may overwrite an operand;
`flt_sub` and `flt_modf`, which write through their operands, are modelled over
a store in `Flt.Sequence`.
-/

namespace AckFormal.Flt.Operations

open Mantissa Number FltArith Lib.Digits

/-! ## Addition -/

def subtractMantissa (a b : FltMantissa) : FltMantissa :=
  let h := if a.l32 < b.l32 then a.h32 - 1 else a.h32
  ⟨h - b.h32, a.l32 - b.l32⟩

theorem subtractMantissa_value {a b : FltMantissa} (below : b.value ≤ a.value) :
    (subtractMantissa a b).value = a.value - b.value := by
  have aLow := a.l32.toNat_lt
  have bLow := b.l32.toNat_lt
  have aHigh := a.h32.toNat_lt
  have one : (1 : UInt32).toNat = 1 := rfl
  unfold FltMantissa.value at below
  unfold subtractMantissa FltMantissa.value
  split
  next borrow =>
    rw [UInt32.lt_iff_toNat_lt] at borrow
    rw [UInt32.toNat_sub, UInt32.toNat_sub, UInt32.toNat_sub, one]
    omega
  next none =>
    rw [UInt32.lt_iff_toNat_lt] at none
    rw [UInt32.toNat_sub, UInt32.toNat_sub]
    omega

/-- The operand with the smaller exponent is shifted to the other's power. -/
def alignExponents (e1 e2 : FltArith) : FltArith × FltArith :=
  let diff := e2.exp - e1.exp
  if diff < 0 then
    (e1, { e2 with exp := toShort (e2.exp + -diff), mantissa := fltB64Sft e2.mantissa (-diff) })
  else if diff > 0 then
    ({ e1 with exp := toShort (e1.exp + diff), mantissa := fltB64Sft e1.mantissa diff }, e2)
  else (e1, e2)

/-- The sum of two numbers of equal power, before it is normalised. -/
def addAligned (e1 e2 : FltArith) : FltArith :=
  if e1.sign ≠ e2.sign then
    if e1.m1 > e2.m1 ∨ (e1.m1 = e2.m1 ∧ e1.m2 > e2.m2) then
      { e1 with mantissa := subtractMantissa e1.mantissa e2.mantissa }
    else { e2 with mantissa := subtractMantissa e2.mantissa e1.mantissa }
  else
    let (sum, carry) := fltB64Add e2.mantissa e1.mantissa
    if carry then
      let half := fltB64Sft sum 1
      { e2 with mantissa := ⟨half.h32 ||| 0x80000000, half.l32⟩, exp := toShort (e2.exp + 1) }
    else { e2 with mantissa := sum }

def fltAdd (e1 e2 : FltArith) : FltArith × FltStatus :=
  if e2.m1 ||| e2.m2 = 0 then (e1, .ok)
  else if e1.m1 ||| e1.m2 = 0 then (e2, .ok)
  else
    let (c1, c2) := alignExponents e1 e2
    fltChk (fltNrm (addAligned c1 c2)) .ok

theorem fltAdd_zero_right {e1 e2 : FltArith} (empty : e2.mantissa = FltMantissa.zero) :
    fltAdd e1 e2 = (e1, .ok) := by
  rw [fltAdd, if_pos (FltMantissa.or_eq_zero.mpr empty)]

variable {e1 e2 : FltArith} {digit : Nat}

theorem fltAdd_zero_left (nonzero : e2.mantissa ≠ FltMantissa.zero)
    (empty : e1.mantissa = FltMantissa.zero) : fltAdd e1 e2 = (e2, .ok) := by
  rw [fltAdd, if_neg (mt FltMantissa.or_eq_zero.mp nonzero),
    if_pos (FltMantissa.or_eq_zero.mpr empty)]

theorem fltAdd_delivered (nonzero1 : e1.mantissa ≠ FltMantissa.zero)
    (nonzero2 : e2.mantissa ≠ FltMantissa.zero) : Delivered (fltAdd e1 e2) := by
  rw [fltAdd, if_neg (mt FltMantissa.or_eq_zero.mp nonzero2),
    if_neg (mt FltMantissa.or_eq_zero.mp nonzero1)]
  exact fltChk_fltNrm_delivered _ _

def fltCmp (e1 e2 : FltArith) : Int :=
  let x := (fltAdd e1 e2.negate).1
  if x.m1 = 0 ∧ x.m2 = 0 then 0
  else if x.sign then -1
  else 1

/-! ## Multiplication -/

/-- The loop over `j` in `flt_mul`: one digit of the multiplier times all digits
of the multiplicand, added to the result from `pres` on. -/
def mulInner (mpi : Nat) (mc : Nat → Nat) (pres : Nat) :
    Nat → (Nat → Nat) → Nat → (Nat → Nat) × Nat
  | 0, result, k => (result, k)
  | j + 1, result, k =>
    let tmp := result (pres + j) + k
    let tmp := if mc j ≠ 0 then tmp + mpi * mc j % 2 ^ 32 else tmp
    mulInner mpi mc pres j (Function.update result (pres + j) (tmp % 2 ^ 16))
      (tmp / 2 ^ 16 % 2 ^ 16)

/-- The loop over `i` in `flt_mul`, with `pres = &result[i + 1]`. -/
def mulOuter (mp mc : Nat → Nat) : Nat → (Nat → Nat) → Nat → Nat
  | 0, result => result
  | i + 1, result =>
    if mp i ≠ 0 then
      let (result, k) := mulInner (mp i) mc (i + 1) 4 result 0
      mulOuter mp mc i (Function.update result i k)
    else mulOuter mp mc i result

def mulDigits (a b : FltMantissa) : Nat → Nat :=
  mulOuter (fltSplit a) (fltSplit b) 4 fun _ => 0

def mulShift (result : Nat → Nat) (i : Nat) : Nat :=
  if i ≤ 3 then
    let digit := result i * 2 % 2 ^ 16
    if result (i + 1) &&& 0x8000 ≠ 0 then digit ||| 1 else digit
  else if i = 4 then result 4 * 2 % 2 ^ 16
  else result i

/-- The rounding on the first bit that is left out, the top bit of the fifth
digit. -/
def mulRound (sign : Bool) (exp : Int) (m1 m2 : UInt32) (digit : Nat) : FltArith :=
  if digit &&& 0x8000 ≠ 0 then
    if m2 + 1 = 0 then
      if m1 + 1 = 0 then ⟨sign, toShort (exp + 1), ⟨0x80000000, 0⟩⟩
      else ⟨sign, exp, ⟨m1 + 1, 0⟩⟩
    else ⟨sign, exp, ⟨m1, m2 + 1⟩⟩
  else ⟨sign, exp, ⟨m1, m2⟩⟩

def mulCombine (sign : Bool) (exp : Int) (result : Nat → Nat) : FltArith :=
  mulRound sign exp (UInt32.ofNat (result 0 * 2 ^ 16 + result 1))
    (UInt32.ofNat (result 2 * 2 ^ 16 + result 3)) (result 4)

def fltMulUnchecked (e1 e2 : FltArith) : FltArith :=
  let sign := e1.sign ^^ e2.sign
  let exp := toShort (e1.exp + e2.exp + 1)
  let result := mulDigits e1.mantissa e2.mantissa
  if result 0 &&& 0x8000 = 0 then mulCombine sign (toShort (exp - 1)) (mulShift result)
  else mulCombine sign exp result

def fltMul (e1 e2 : FltArith) : FltArith × FltStatus :=
  fltChk (fltMulUnchecked e1 e2) .ok

/-- No partial sum of the loop leaves a 32-bit word, so that it is the general
row of schoolbook multiplication. -/
theorem mulInner_eq_multiplyRow {mpi : Nat} {mc : Nat → Nat} (pres j : Nat)
    (result : Nat → Nat) (k : Nat) (factor : mpi < 2 ^ 16) (words : ∀ index, mc index < 2 ^ 16)
    (digits : ∀ index, result index < 2 ^ 16) (carry : k < 2 ^ 16) :
    mulInner mpi mc pres j result k = multiplyRow (2 ^ 16) mpi mc pres j result k := by
  induction j generalizing result k with
  | zero => rfl
  | succ j ih =>
    have product : mpi * mc j ≤ 65535 * 65535 :=
      Nat.mul_le_mul (by omega) (by have := words j; omega)
    have digit := digits (pres + j)
    have tmp : (if mc j ≠ 0 then result (pres + j) + k + mpi * mc j % 2 ^ 32
        else result (pres + j) + k) = result (pres + j) + k + mpi * mc j := by
      split
      next nonzero => omega
      next zero =>
        have none : mc j = 0 := not_not.mp zero
        simp [none]
    rw [mulInner, multiplyRow]
    simp only [tmp]
    rw [Nat.mod_eq_of_lt (by omega : (result (pres + j) + k + mpi * mc j) / 2 ^ 16 < 2 ^ 16)]
    exact ih _ _ (update_lt digits (Nat.mod_lt _ (by decide)) _) (by omega)

/-- The invariant of the loop over `i`: the digits from `i` on hold the product
of the multiplier's digits from `i` on, and nothing is written above them. -/
theorem mulOuter_value {mp mc : Nat → Nat} (multiplier : ∀ index, mp index < 2 ^ 16)
    (words : ∀ index, mc index < 2 ^ 16) (i : Nat) (bound : i ≤ 4) (result : Nat → Nat)
    (digits : ∀ index, result index < 2 ^ 16) (clear : ∀ index, index < i → result index = 0)
    (product : digitsValue (2 ^ 16) result i (8 - i) =
      digitsValue (2 ^ 16) mp i (4 - i) * digitsValue (2 ^ 16) mc 0 4) :
    (∀ index, mulOuter mp mc i result index < 2 ^ 16) ∧
    digitsValue (2 ^ 16) (mulOuter mp mc i result) 0 8 =
      digitsValue (2 ^ 16) mp 0 4 * digitsValue (2 ^ 16) mc 0 4 := by
  induction i generalizing result with
  | zero => exact ⟨digits, product⟩
  | succ i ih =>
    have more : 8 - i = 8 - (i + 1) + 1 := by omega
    have moreDigits : 4 - i = 4 - (i + 1) + 1 := by omega
    have partsWidth : 8 - (i + 1) = 4 + (4 - (i + 1)) := by omega
    have multiplierHead : digitsValue (2 ^ 16) mp i (4 - i) =
        mp i * (2 ^ 16) ^ (4 - (i + 1)) + digitsValue (2 ^ 16) mp (i + 1) (4 - (i + 1)) := by
      rw [moreDigits, digitsValue_head]
    rw [mulOuter]
    split
    next nonzero =>
      rw [mulInner_eq_multiplyRow _ _ _ _ (multiplier i) words digits (by decide)]
      have frame := multiplyRow_frame (2 ^ 16) (mp i) mc (i + 1) 4 result 0
      have digit := multiplyRow_digit_lt (mp i) mc (i + 1) 4 result 0
        (by decide : 0 < 2 ^ 16) digits
      have carry := multiplyRow_carry_lt mc (i + 1) 4 result 0 (multiplier i) words digits
        (by decide)
      have row := multiplyRow_value (2 ^ 16) (mp i) mc (i + 1) 4 result 0
      generalize multiplyRow (2 ^ 16) (mp i) mc (i + 1) 4 result 0 = next at *
      refine ih (by omega) _ (update_lt digit carry _) (fun index below => ?_) ?_
      · rw [Function.update_of_ne (by omega), frame _ (Or.inl (by omega))]
        exact clear index (by omega)
      · have unchanged : digitsValue (2 ^ 16) (Function.update next.1 i next.2) (i + 1)
            (8 - (i + 1)) = digitsValue (2 ^ 16) next.1 (i + 1) (8 - (i + 1)) :=
          digitsValue_congr fun index low _ => Function.update_of_ne (by omega) _ _
        have lower : digitsValue (2 ^ 16) next.1 (i + 1 + 4) (4 - (i + 1)) =
            digitsValue (2 ^ 16) result (i + 1 + 4) (4 - (i + 1)) :=
          digitsValue_congr fun index low _ => frame _ (Or.inr low)
        rw [more, digitsValue_head, Function.update_self, unchanged, multiplierHead,
          Nat.add_mul, ← product, partsWidth, digitsValue_add, digitsValue_add, lower, pow_add]
        calc next.2 * ((2 ^ 16) ^ 4 * (2 ^ 16) ^ (4 - (i + 1))) +
              (digitsValue (2 ^ 16) next.1 (i + 1) 4 * (2 ^ 16) ^ (4 - (i + 1)) +
                digitsValue (2 ^ 16) result (i + 1 + 4) (4 - (i + 1)))
            = (next.2 * (2 ^ 16) ^ 4 + digitsValue (2 ^ 16) next.1 (i + 1) 4) *
                (2 ^ 16) ^ (4 - (i + 1)) +
                digitsValue (2 ^ 16) result (i + 1 + 4) (4 - (i + 1)) := by ring
          _ = _ := by
              rw [row]
              ring
    next zero =>
      have none : mp i = 0 := not_not.mp zero
      refine ih (by omega) result digits (fun index below => clear index (by omega)) ?_
      rw [more, digitsValue_head, clear i (by omega), multiplierHead, none, product]
      simp

theorem digitsValue_fltSplit (m : FltMantissa) :
    digitsValue (2 ^ 16) (fltSplit m) 0 4 = m.value := by
  unfold FltMantissa.value
  simp only [digitsValue, fltSplit]
  omega

theorem mulDigits_value (a b : FltMantissa) :
    (∀ index, mulDigits a b index < 2 ^ 16) ∧
    digitsValue (2 ^ 16) (mulDigits a b) 0 8 = a.value * b.value := by
  have product := mulOuter_value (fltSplit_lt a) (fltSplit_lt b) 4 le_rfl (fun _ => 0)
    (fun _ => by decide) (fun _ _ => rfl) (by simp [digitsValue])
  rwa [digitsValue_fltSplit, digitsValue_fltSplit] at product

theorem digit_top (bound : digit < 2 ^ 16) : digit &&& 0x8000 = 0 ↔ digit < 2 ^ 15 := by
  rw [show 0x8000 = 2 ^ 15 from rfl, Nat.and_two_pow, Nat.testBit_eq_decide_div_mod_eq]
  by_cases top : digit / 2 ^ 15 % 2 = 1
  · rw [decide_eq_true top]
    simp
    omega
  · rw [decide_eq_false top]
    simp
    omega

theorem or_one_of_even (even : digit % 2 = 0) : digit ||| 1 = digit + 1 := by
  obtain ⟨half, rfl⟩ := Nat.dvd_of_mod_eq_zero even
  rw [show 2 * half = 2 ^ 1 * half by ring, Nat.two_pow_add_eq_or_of_lt (by decide)]

section

variable (result : Nat → Nat) (digits : ∀ index, result index < 2 ^ 16)
include result digits

theorem mulShift_digit {i : Nat}
    (small : i ≤ 3) :
    mulShift result i = result i * 2 % 2 ^ 16 + result (i + 1) / 2 ^ 15 := by
  have following := digits (i + 1)
  unfold mulShift
  rw [if_pos small]
  dsimp only
  split
  next set =>
    rw [Ne, digit_top following] at set
    rw [or_one_of_even (by omega)]
    omega
  next clear =>
    rw [not_not, digit_top following] at clear
    omega

theorem mulShift_value (top : result 0 < 2 ^ 15) :
    digitsValue (2 ^ 16) (mulShift result) 0 5 = 2 * digitsValue (2 ^ 16) result 0 5 := by
  have last : mulShift result 4 = result 4 * 2 % 2 ^ 16 := rfl
  simp only [digitsValue, Nat.zero_add, Nat.zero_mul, Nat.reduceAdd,
    mulShift_digit result digits (by decide : 0 ≤ 3),
    mulShift_digit result digits (by decide : 1 ≤ 3),
    mulShift_digit result digits (by decide : 2 ≤ 3),
    mulShift_digit result digits (by decide : 3 ≤ 3), last]
  omega

theorem mulShift_lt (i : Nat) :
    mulShift result i < 2 ^ 16 := by
  by_cases small : i ≤ 3
  · have following := digits (i + 1)
    rw [mulShift_digit result digits small]
    omega
  · unfold mulShift
    rw [if_neg small]
    split
    next => exact Nat.mod_lt _ (by decide)
    next => exact digits i

end

theorem mulRound_spec (sign : Bool) (exp : Int) (m1 m2 : UInt32) (bound : digit < 2 ^ 16) :
    (mulRound sign exp m1 m2 digit).sign = sign ∧
    ((⟨m1, m2⟩ : FltMantissa).value + digit / 2 ^ 15 < 2 ^ 64 →
      (mulRound sign exp m1 m2 digit).mantissa.value =
          (⟨m1, m2⟩ : FltMantissa).value + digit / 2 ^ 15 ∧
        (mulRound sign exp m1 m2 digit).exp = exp) ∧
    (2 ^ 64 ≤ (⟨m1, m2⟩ : FltMantissa).value + digit / 2 ^ 15 →
      (mulRound sign exp m1 m2 digit).mantissa.value = 2 ^ 63 ∧
        (mulRound sign exp m1 m2 digit).exp = toShort (exp + 1)) := by
  have m1Bound := m1.toNat_lt
  have m2Bound := m2.toNat_lt
  have sum1 : (m1 + 1).toNat = (m1.toNat + 1) % 2 ^ 32 := UInt32.toNat_add m1 1
  have sum2 : (m2 + 1).toNat = (m2.toNat + 1) % 2 ^ 32 := UInt32.toNat_add m2 1
  have next1 : m1 + 1 = 0 ↔ m1.toNat = 2 ^ 32 - 1 := by
    rw [← UInt32.toNat_inj, sum1, UInt32.toNat_zero]
    omega
  have next2 : m2 + 1 = 0 ↔ m2.toNat = 2 ^ 32 - 1 := by
    rw [← UInt32.toNat_inj, sum2, UInt32.toNat_zero]
    omega
  simp only [mulRound, ne_eq, digit_top bound, next1, next2]
  split_ifs <;>
    refine ⟨rfl, fun small => ?_, fun large => ?_⟩ <;>
    simp only [FltMantissa.value, UInt32.reduceToNat, and_true] at * <;>
    omega

/-- Rounding half up on the sixteen bits below the mantissa. -/
theorem mulCombine_spec (sign : Bool) (exp : Int) (result : Nat → Nat)
    (digits : ∀ index, result index < 2 ^ 16) :
    (mulCombine sign exp result).sign = sign ∧
    ((digitsValue (2 ^ 16) result 0 5 + 2 ^ 15) / 2 ^ 16 < 2 ^ 64 →
      (mulCombine sign exp result).mantissa.value =
          (digitsValue (2 ^ 16) result 0 5 + 2 ^ 15) / 2 ^ 16 ∧
        (mulCombine sign exp result).exp = exp) ∧
    (2 ^ 64 ≤ (digitsValue (2 ^ 16) result 0 5 + 2 ^ 15) / 2 ^ 16 →
      (mulCombine sign exp result).mantissa.value = 2 ^ 63 ∧
        (mulCombine sign exp result).exp = toShort (exp + 1)) := by
  have d0 := digits 0
  have d1 := digits 1
  have d2 := digits 2
  have d3 := digits 3
  have d4 := digits 4
  have rounded : (digitsValue (2 ^ 16) result 0 5 + 2 ^ 15) / 2 ^ 16 =
      (⟨UInt32.ofNat (result 0 * 2 ^ 16 + result 1), UInt32.ofNat (result 2 * 2 ^ 16 + result 3)⟩ :
        FltMantissa).value + result 4 / 2 ^ 15 := by
    simp only [FltMantissa.value, digitsValue, Nat.zero_add, UInt32.toNat_ofNat']
    omega
  rw [rounded]
  exact mulRound_spec sign exp _ _ d4

/-- The product of two normalized mantissas is normalized. -/
theorem fltMulUnchecked_normalized (normal1 : e1.mantissa.Normalized)
    (normal2 : e2.mantissa.Normalized) : (fltMulUnchecked e1 e2).mantissa.Normalized := by
  obtain ⟨digits, product⟩ := mulDigits_value e1.mantissa e2.mantissa
  have large : 2 ^ 126 ≤ digitsValue (2 ^ 16) (mulDigits e1.mantissa e2.mantissa) 0 8 := by
    rw [product, show 2 ^ 126 = 2 ^ 63 * 2 ^ 63 by norm_num]
    exact Nat.mul_le_mul normal1 normal2
  unfold fltMulUnchecked
  dsimp only
  generalize mulDigits e1.mantissa e2.mantissa = result at digits large ⊢
  have low := digitsValue_lt 5 3 digits
  have head : digitsValue (2 ^ 16) result 0 5 =
      result 0 * (2 ^ 16) ^ 4 + digitsValue (2 ^ 16) result 1 4 :=
    digitsValue_head (2 ^ 16) result 0 4
  rw [digitsValue_add (2 ^ 16) result 0 5 3, Nat.zero_add] at large
  unfold FltMantissa.Normalized
  split
  next clear =>
    rw [digit_top (digits 0)] at clear
    obtain ⟨-, fits, carries⟩ := mulCombine_spec (e1.sign ^^ e2.sign)
      (toShort (toShort (e1.exp + e2.exp + 1) - 1)) (mulShift result) (mulShift_lt result digits)
    rw [mulShift_value result digits clear] at fits carries
    by_cases carry : 2 ^ 64 ≤ (2 * digitsValue (2 ^ 16) result 0 5 + 2 ^ 15) / 2 ^ 16
    · exact (carries carry).1.ge
    · rw [(fits (not_le.mp carry)).1]
      omega
  next set =>
    rw [digit_top (digits 0)] at set
    obtain ⟨-, fits, carries⟩ := mulCombine_spec (e1.sign ^^ e2.sign)
      (toShort (e1.exp + e2.exp + 1)) result digits
    by_cases carry : 2 ^ 64 ≤ (digitsValue (2 ^ 16) result 0 5 + 2 ^ 15) / 2 ^ 16
    · exact (carries carry).1.ge
    · rw [(fits (not_le.mp carry)).1]
      omega

/-- The exponent of a product of normalized mantissas, while it stays inside a
`short`. -/
theorem fltMulUnchecked_exp (e1 e2 : FltArith) (low : -30000 ≤ e1.exp + e2.exp)
    (high : e1.exp + e2.exp ≤ 30000) :
    e1.exp + e2.exp ≤ (fltMulUnchecked e1 e2).exp ∧
      (fltMulUnchecked e1 e2).exp ≤ e1.exp + e2.exp + 2 := by
  obtain ⟨digits, -⟩ := mulDigits_value e1.mantissa e2.mantissa
  have bias : toShort (e1.exp + e2.exp + 1) = e1.exp + e2.exp + 1 :=
    toShort_of_range (by omega) (by omega)
  have unbias : toShort (e1.exp + e2.exp + 1 - 1) = e1.exp + e2.exp := by
    rw [toShort_of_range (by omega) (by omega)]
    omega
  unfold fltMulUnchecked
  rw [bias]
  dsimp only
  rw [unbias]
  split
  next =>
    obtain ⟨lower, upper⟩ := mulCombine_exp (e1.sign ^^ e2.sign) (e1.exp + e2.exp)
      (by omega) (by omega) (mulShift_lt _ digits)
    omega
  next =>
    obtain ⟨lower, upper⟩ := mulCombine_exp (e1.sign ^^ e2.sign) (e1.exp + e2.exp + 1)
      (by omega) (by omega) digits
    omega
where
  mulCombine_exp (sign : Bool) (exp : Int) {result : Nat → Nat} (low : -32000 ≤ exp)
      (high : exp ≤ 32000) (digits : ∀ index, result index < 2 ^ 16) :
      exp ≤ (mulCombine sign exp result).exp ∧ (mulCombine sign exp result).exp ≤ exp + 1 := by
    obtain ⟨-, fits, carries⟩ := mulCombine_spec sign exp result digits
    by_cases carry : 2 ^ 64 ≤ (digitsValue (2 ^ 16) result 0 5 + 2 ^ 15) / 2 ^ 16
    · rw [(carries carry).2, toShort_of_range (by omega) (by omega)]
      omega
    · rw [(fits (not_le.mp carry)).2]
      omega

theorem fltMul_delivered (normal1 : e1.mantissa.Normalized) (normal2 : e2.mantissa.Normalized) :
    Delivered (fltMul e1 e2) :=
  fltChk_delivered _ (fltMulUnchecked_normalized normal1 normal2)

/-- With a zero operand nothing resets the sign and the exponent. -/
theorem fltMulUnchecked_zero {e1 e2 : FltArith}
    (empty : e1.mantissa = FltMantissa.zero ∨ e2.mantissa = FltMantissa.zero) :
    fltMulUnchecked e1 e2 =
      ⟨e1.sign ^^ e2.sign, toShort (e1.exp + e2.exp), FltMantissa.zero⟩ := by
  obtain ⟨digits, product⟩ := mulDigits_value e1.mantissa e2.mantissa
  have none : digitsValue (2 ^ 16) (mulDigits e1.mantissa e2.mantissa) 0 8 = 0 := by
    rw [product]
    rcases empty with empty | empty <;> simp [empty]
  unfold fltMulUnchecked
  generalize mulDigits e1.mantissa e2.mantissa = result at digits none ⊢
  rw [digitsValue_add (2 ^ 16) result 0 5 3] at none
  have upper : digitsValue (2 ^ 16) result 0 5 = 0 := by omega
  have first : result 0 = 0 := by
    rw [digitsValue_head] at upper
    omega
  obtain ⟨sign, fits, -⟩ := mulCombine_spec (e1.sign ^^ e2.sign)
    (toShort (toShort (e1.exp + e2.exp + 1) - 1)) (mulShift result) (mulShift_lt result digits)
  rw [mulShift_value result digits (by omega), upper] at fits
  obtain ⟨mantissa, exponent⟩ := fits (by decide)
  rw [if_pos (by rw [first]; rfl)]
  generalize mulCombine (e1.sign ^^ e2.sign) (toShort (toShort (e1.exp + e2.exp + 1) - 1))
    (mulShift result) = res at sign mantissa exponent ⊢
  have unbias : toShort (toShort (e1.exp + e2.exp + 1) - 1) = toShort (e1.exp + e2.exp) := by
    rw [sub_eq_add_neg, toShort_add]
    ring_nf
  obtain ⟨resSign, resExp, resMantissa⟩ := res
  simp only at sign mantissa exponent
  rw [sign, exponent, unbias, FltMantissa.value_eq_zero.mp mantissa]

end AckFormal.Flt.Operations
