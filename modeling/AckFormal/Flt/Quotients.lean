import AckFormal.Flt.DivisionDigits
import AckFormal.Flt.Products

/-!
# Quotients

The loop of `flt_div` divides the mantissas by Knuth's algorithm: turn for turn
the digit is the next digit of the quotient, and the window keeps a remainder
below the divisor.
-/

namespace AckFormal.Flt.Quotients

open Mantissa Number FltArith Operations Division DivisionDigits Products
open Lib.Digits Lib.LongDivision Lib.Rounding

def running (e1 e2 : FltArith) : Nat → Nat → Nat
  | 0 => dividend e1
  | j + 1 => (divideDigit (divisor e2) (lastDigit (divisor e2) 4) j (running e1 e2 j)).2

def digit (e1 e2 : FltArith) (j : Nat) : Nat :=
  (divideDigit (divisor e2) (lastDigit (divisor e2) 4) j (running e1 e2 j)).1

/-! ## What the loop starts from -/

theorem lastDigit_le (v : Nat → Nat) (maxv : Nat) : lastDigit v maxv ≤ maxv := by
  induction maxv with
  | zero => exact le_rfl
  | succ maxv ih =>
    rw [lastDigit]
    split
    next => exact Nat.le_succ_of_le ih
    next => exact le_rfl

theorem lastDigit_zeros (v : Nat → Nat) (maxv index : Nat) (above : lastDigit v maxv < index)
    (inside : index ≤ maxv) : v index = 0 := by
  induction maxv with
  | zero => omega
  | succ maxv ih =>
    rw [lastDigit] at above
    split at above
    next zero =>
      rcases Nat.lt_or_eq_of_le inside with less | same
      · exact ih above (Nat.le_of_lt_succ less)
      · rwa [same]
    next => omega

theorem divisor_lt (e2 : FltArith) (index : Nat) : divisor e2 index < 2 ^ 16 := by
  cases index with
  | zero => exact Nat.two_pow_pos 16
  | succ index => exact fltSplit_lt e2.mantissa index

variable {e2 e1 : FltArith} {j : Nat}

theorem prepared_divisor (normal : e2.mantissa.Normalized) :
    Prepared (divisor e2) (lastDigit (divisor e2) 4) := by
  refine ⟨divisor_lt e2, ?_, lastDigit_le _ _, fun index above => ?_⟩
  · have high := FltMantissa.normalized_iff_high.mp normal
    change 0 < e2.mantissa.h32.toNat / 2 ^ 16
    omega
  · by_cases inside : index ≤ 4
    · exact lastDigit_zeros _ _ _ above inside
    · obtain ⟨rest, rfl⟩ : ∃ rest, index = rest + 5 := ⟨index - 5, by omega⟩
      rfl

theorem divisorValue_divisor (e2 : FltArith) : divisorValue (divisor e2) = e2.mantissa.value := by
  rw [← divisorValue_words, ← digitsValue_fltSplit]
  rfl

theorem dividend_lt (e1 : FltArith) (index : Nat) : dividend e1 index < 2 ^ 16 := by
  unfold dividend
  split
  next => omega
  next => exact fltSplit_lt _ _

theorem dividend_head (e1 : FltArith) :
    digitsValue (2 ^ 16) (dividend e1) 0 4 = e1.mantissa.value / 2 := by
  have same : digitsValue (2 ^ 16) (dividend e1) 0 4 =
      digitsValue (2 ^ 16) (fltSplit (fltB64Sft e1.mantissa 1)) 0 4 :=
    digitsValue_congr fun index _ high => if_neg (by omega)
  rw [same, digitsValue_fltSplit]
  exact fltB64Sft_right e1.mantissa (by decide : 1 ≤ 63)

theorem dividend_zero (e1 : FltArith) {index : Nat} (high : 5 ≤ index) : dividend e1 index = 0 := by
  obtain ⟨rest, rfl⟩ := Nat.exists_eq_add_of_le' high
  rfl

/-- The bit that the shift drops stands in the fifth digit. -/
theorem dividend_value (e1 : FltArith) :
    digitsValue (2 ^ 16) (dividend e1) 0 8 = e1.mantissa.value * 2 ^ 63 := by
  have fifth : dividend e1 4 = e1.mantissa.l32.toNat % 2 * 2 ^ 15 := rfl
  have zeros : digitsValue (2 ^ 16) (dividend e1) (0 + 5) 3 = 0 :=
    digitsValue_tail_zero fun index high => dividend_zero e1 high
  have parity : e1.mantissa.l32.toNat % 2 = e1.mantissa.value % 2 := by
    unfold FltMantissa.value
    omega
  rw [digitsValue_add (2 ^ 16) _ 0 5 3, zeros, digitsValue_succ, dividend_head, Nat.zero_add, fifth,
    parity]
  omega

/-! ## The loop -/

/-- What holds before turn `j`: the digits of the dividend the loop has come to
are the quotient so far times the divisor, and the remainder in the window. -/
structure Divided (e1 e2 : FltArith) (j : Nat) : Prop where
  digits : ∀ index, running e1 e2 j index < 2 ^ 16
  ahead : ∀ index, j + 4 ≤ index → running e1 e2 j index = dividend e1 index
  small : digitsValue (2 ^ 16) (running e1 e2 j) j 4 < e2.mantissa.value
  value : digitsValue (2 ^ 16) (dividend e1) 0 (4 + j) =
    digitsValue (2 ^ 16) (digit e1 e2) 0 j * e2.mantissa.value +
      digitsValue (2 ^ 16) (running e1 e2 j) j 4

theorem Divided.start (e1 : FltArith) (normal : e2.mantissa.Normalized) : Divided e1 e2 0 := by
  have bound := e1.mantissa.value_lt
  unfold FltMantissa.Normalized at normal
  refine ⟨dividend_lt e1, fun _ _ => rfl, ?_, by simp [running]⟩
  change digitsValue (2 ^ 16) (dividend e1) 0 4 < _
  rw [dividend_head]
  omega

theorem Divided.window_eq (divided : Divided e1 e2 j) :
    window (running e1 e2 j) j =
      digitsValue (2 ^ 16) (running e1 e2 j) j 4 * 2 ^ 16 + dividend e1 (j + 4) := by
  rw [window, digitsValue_succ, divided.ahead (j + 4) le_rfl]

theorem Divided.window_lt (divided : Divided e1 e2 j) :
    window (running e1 e2 j) j < divisorValue (divisor e2) * 2 ^ 16 := by
  have small := divided.small
  have next := dividend_lt e1 (j + 4)
  rw [divided.window_eq, divisorValue_divisor]
  omega

theorem Divided.turn (normal : e2.mantissa.Normalized) (divided : Divided e1 e2 j) :
    digit e1 e2 j = window (running e1 e2 j) j / e2.mantissa.value ∧
      window (running e1 e2 (j + 1)) j = window (running e1 e2 j) j % e2.mantissa.value ∧
      Kept (running e1 e2 j) (running e1 e2 (j + 1)) j := by
  have spec := divideDigit_spec (prepared_divisor normal) divided.digits divided.window_lt
  rwa [divisorValue_divisor] at spec

theorem Divided.step {e1 e2 : FltArith} {j : Nat} (normal : e2.mantissa.Normalized)
    (divided : Divided e1 e2 j) : Divided e1 e2 (j + 1) := by
  obtain ⟨quotient, left, kept⟩ := divided.turn normal
  have bound := e2.mantissa.value_lt
  have positive : 0 < e2.mantissa.value := lt_of_lt_of_le (by decide) normal
  have remainder := Nat.mod_lt (window (running e1 e2 j) j) positive
  -- the remainder is shorter than the window, so that its first digit is zero
  have rest : digitsValue (2 ^ 16) (running e1 e2 (j + 1)) (j + 1) 4 =
      window (running e1 e2 j) j % e2.mantissa.value := by
    have head := DivisionDigits.window_eq (running e1 e2 (j + 1)) j
    omega
  refine ⟨kept.digits, fun index high => ?_, by rwa [rest], ?_⟩
  · rw [kept.outside index (Or.inr (by omega))]
    exact divided.ahead index (by omega)
  · have split := Nat.div_add_mod (window (running e1 e2 j) j) e2.mantissa.value
    rw [rest, ← Nat.add_assoc, digitsValue_succ, digitsValue_succ, divided.value, Nat.zero_add,
      Nat.zero_add, quotient, Nat.add_comm 4 j]
    calc (digitsValue (2 ^ 16) (digit e1 e2) 0 j * e2.mantissa.value +
          digitsValue (2 ^ 16) (running e1 e2 j) j 4) * 2 ^ 16 + dividend e1 (j + 4)
        = digitsValue (2 ^ 16) (digit e1 e2) 0 j * 2 ^ 16 * e2.mantissa.value +
            window (running e1 e2 j) j := by
          rw [divided.window_eq]
          ring
      _ = digitsValue (2 ^ 16) (digit e1 e2) 0 j * 2 ^ 16 * e2.mantissa.value +
            (e2.mantissa.value * (window (running e1 e2 j) j / e2.mantissa.value) +
              window (running e1 e2 j) j % e2.mantissa.value) := by rw [split]
      _ = _ := by ring

theorem divided (e1 : FltArith) (normal : e2.mantissa.Normalized) (j : Nat) : Divided e1 e2 j := by
  induction j with
  | zero => exact Divided.start e1 normal
  | succ j ih => exact ih.step normal

theorem digit_lt (e1 : FltArith) (normal : e2.mantissa.Normalized) (j : Nat) :
    digit e1 e2 j < 2 ^ 16 := by
  have before := divided e1 normal j
  rw [(before.turn normal).1]
  refine Nat.div_lt_of_lt_mul ?_
  rw [← divisorValue_divisor]
  exact before.window_lt

theorem digits_quotient (e1 : FltArith) (normal : e2.mantissa.Normalized) :
    digitsValue (2 ^ 16) (digit e1 e2) 0 4 = e1.mantissa.value * 2 ^ 63 / e2.mantissa.value := by
  have final := divided e1 normal 4
  have value := final.value
  rw [dividend_value] at value
  have positive : 0 < e2.mantissa.value := lt_of_lt_of_le (by decide) normal
  rw [value, Nat.mul_comm, Nat.mul_add_div positive, Nat.div_eq_of_lt final.small, Nat.add_zero]

theorem quotientWords_digits (e1 e2 : FltArith) :
    quotientWords e1 e2 =
      ⟨UInt32.ofNat (digit e1 e2 0 * 2 ^ 16) ||| UInt32.ofNat (digit e1 e2 1),
        UInt32.ofNat (digit e1 e2 2 * 2 ^ 16) ||| UInt32.ofNat (digit e1 e2 3)⟩ := by
  simp only [quotientWords, digit, running]

theorem quotientWords_value (e1 : FltArith) {e2 : FltArith} (normal : e2.mantissa.Normalized) :
    (quotientWords e1 e2).value = e1.mantissa.value * 2 ^ 63 / e2.mantissa.value := by
  rw [quotientWords_digits, ← digits_quotient e1 normal]
  have both {high low : Nat} (highBound : high < 2 ^ 16) (lowBound : low < 2 ^ 16) :
      (UInt32.ofNat (high * 2 ^ 16) ||| UInt32.ofNat low).toNat = high * 2 ^ 16 + low := by
    rw [UInt32.toNat_or, UInt32.toNat_ofNat', UInt32.toNat_ofNat', Nat.mod_eq_of_lt (by omega),
      Nat.mod_eq_of_lt (by omega), Nat.or_comm, or_eq_add_of_lt lowBound, Nat.add_comm]
  have small := digit_lt e1 normal
  unfold FltMantissa.value
  rw [both (small 0) (small 1), both (small 2) (small 3)]
  simp only [digitsValue]
  ring

end AckFormal.Flt.Quotients

/-!
## The arrays of the division

`flt_div` declares `u[9]`, `v[5]` and `result[2]`, and sets all elements but
`u[8]` and `v[0]`.  The functions here are those of `Flt.Division` with every
access to an array checked; an access outside the elements that are set gives no
result.
-/

namespace AckFormal.Flt.DivisionBounds

open Mantissa Number FltArith Division DivisionDigits Quotients
open Function (update update_of_ne update_self)

/-- An element of an array that is set from `first` up to `size`. -/
def element (first size : Nat) (array : Nat → Nat) (index : Nat) : Option Nat :=
  if first ≤ index ∧ index < size then some (array index) else none

def store (first size : Nat) (array : Nat → Nat) (index value : Nat) : Option (Nat → Nat) :=
  if first ≤ index ∧ index < size then some (update array index value) else none

abbrev uAt := element 0 8
abbrev vAt := element 1 5
abbrev resultAt := element 0 2

/-- `correctEstimate`, with its accesses to `v[2]`, `u_p[2]` and `v[1]`. -/
def correctEstimateAt (u v : Nat → Nat) (j : Nat) : Nat → Nat → Option Nat
  | 0, temp =>
    if temp / 2 ^ 16 = 0 then do
      let _ ← vAt v 2
      let _ ← uAt u (j + 2)
      some 0
    else some 0
  | q + 1, temp =>
    if temp / 2 ^ 16 = 0 then do
      let v2 ← vAt v 2
      let next ← uAt u (j + 2)
      if v2 * (q + 1) % 2 ^ 32 > (temp * 2 ^ 16 + next) % 2 ^ 32 then do
        let v1 ← vAt v 1
        correctEstimateAt u v j q ((temp + v1) % 2 ^ 32)
      else some (q + 1)
    else some (q + 1)

def estimateAt (u v : Nat → Nat) (j : Nat) : Option Nat := do
  let u0 ← uAt u j
  let u1 ← uAt u (j + 1)
  let v1 ← vAt v 1
  let temp := u0 * 2 ^ 16 + u1
  let q := if u0 ≥ v1 then 0xFFFF else if v1 = 1 then temp else temp / v1
  correctEstimateAt u v j q ((temp + (2 ^ 32 - q * v1 % 2 ^ 32)) % 2 ^ 32)

def multiplySubtractAt (q : Nat) (v : Nat → Nat) (j : Nat) :
    Nat → (Nat → Nat) → Nat → Nat → Option ((Nat → Nat) × Nat × Nat)
  | 0, u, k, borrow => some (u, k, borrow)
  | i + 1, u, k, borrow => do
      let word ← vAt v (i + 1)
      let tmp := (q * word + k + borrow) % 2 ^ 32
      let md := tmp % 2 ^ 16
      let digit ← uAt u (j + (i + 1))
      let u ← store 0 8 u (j + (i + 1)) ((digit + 2 ^ 16 - md) % 2 ^ 16)
      multiplySubtractAt q v j i u (tmp / 2 ^ 16) (if md > digit then 1 else 0)

def addBackAt (v : Nat → Nat) (j : Nat) : Nat → (Nat → Nat) → Nat → Option ((Nat → Nat) × Nat)
  | 0, u, borrow => some (u, borrow)
  | i + 1, u, borrow => do
      let word ← vAt v (i + 1)
      let digit ← uAt u (j + (i + 1))
      let tmp := word + digit + borrow
      let u ← store 0 8 u (j + (i + 1)) (tmp % 2 ^ 16)
      addBackAt v j i u (tmp / 2 ^ 16)

def divideDigitAt (v : Nat → Nat) (maxv j : Nat) (u : Nat → Nat) : Option (Nat × (Nat → Nat)) := do
  let u0 ← uAt u j
  let u1 ← uAt u (j + 1)
  let v1 ← vAt v 1
  if u0 = 0 ∧ u1 < v1 then some (0, u)
  else
    let q ← estimateAt u v j
    if q = 0 then some (0, u)
    else
      let (u, k, borrow) ← multiplySubtractAt q v j maxv u 0 0
      let k := k + borrow
      let u0 ← uAt u j
      let tooBig := u0 < k
      let u ← store 0 8 u j ((u0 + 2 ^ 32 - k) % 2 ^ 16)
      if tooBig then
        let (u, borrow) ← addBackAt v j maxv u 0
        let u0 ← uAt u j
        let u ← store 0 8 u j ((u0 + borrow) % 2 ^ 16)
        some (q - 1, u)
      else some (q, u)

def lastDigitAt (v : Nat → Nat) : Nat → Option Nat
  | 0 => do
      let _ ← vAt v 0
      some 0
  | maxv + 1 => do
      let digit ← vAt v (maxv + 1)
      if digit = 0 then lastDigitAt v maxv else some (maxv + 1)

/-- The loop over `j` with `count` turns to go; `rp` is the index of the word of
`result` it points to. -/
def divideLoopAt (v : Nat → Nat) (maxv : Nat) :
    Nat → Nat → Nat → (Nat → Nat) → (Nat → Nat) → Option (Nat → Nat)
  | 0, _, _, _, result => some result
  | count + 1, j, rp, u, result => do
      let rp := if j = 2 then rp + 1 else rp
      let (q, u) ← divideDigitAt v maxv j u
      let word ← resultAt result rp
      let result ← store 0 2 result rp (word ||| (if j % 2 = 1 then q else q * 2 ^ 16 % 2 ^ 32))
      divideLoopAt v maxv count (j + 1) rp u result

def quotientWordsAt (e1 e2 : FltArith) : Option FltMantissa := do
  let maxv ← lastDigitAt (divisor e2) 4
  let result ← divideLoopAt (divisor e2) maxv 4 0 0 (dividend e1) fun _ => 0
  let high ← resultAt result 0
  let low ← resultAt result 1
  some ⟨UInt32.ofNat high, UInt32.ofNat low⟩

/-! ## No access is outside -/

theorem element_inside {first size index : Nat} (array : Nat → Nat) (low : first ≤ index)
    (high : index < size) : element first size array index = some (array index) :=
  if_pos ⟨low, high⟩

theorem store_inside {first size index : Nat} (array : Nat → Nat) (value : Nat)
    (low : first ≤ index) (high : index < size) :
    store first size array index value = some (update array index value) :=
  if_pos ⟨low, high⟩

variable {j maxv : Nat} {v : Nat → Nat}

theorem correctEstimateAt_inside (u v : Nat → Nat) (turn : j < 4) (q temp : Nat) :
    correctEstimateAt u v j q temp = some (correctEstimate v (u (j + 2)) q temp) := by
  have v1 : vAt v 1 = some (v 1) := element_inside v (by decide) (by decide)
  have v2 : vAt v 2 = some (v 2) := element_inside v (by decide) (by decide)
  have next : uAt u (j + 2) = some (u (j + 2)) :=
    element_inside u (Nat.zero_le (j + 2)) (by omega)
  induction q generalizing temp with
  | zero =>
    simp only [correctEstimateAt, correctEstimate, v2, next, Option.bind_eq_bind,
      Option.bind_some, ite_self]
  | succ q ih =>
    rw [correctEstimateAt, correctEstimate]
    by_cases small : temp / 2 ^ 16 = 0
    · rw [if_pos small, v2, Option.bind_eq_bind, Option.bind_some, next, Option.bind_some]
      by_cases above : v 2 * (q + 1) % 2 ^ 32 > (temp * 2 ^ 16 + u (j + 2)) % 2 ^ 32
      · rw [if_pos above, if_pos ⟨small, above⟩, v1, Option.bind_some, ih]
      · rw [if_neg above, if_neg fun both => above both.2]
    · rw [if_neg small, if_neg fun both => small both.1]

theorem estimateAt_inside (u v : Nat → Nat) (turn : j < 4) :
    estimateAt u v j = some (estimate u v j) := by
  have v1 := element_inside v (by decide : 1 ≤ 1) (by decide : 1 < 5)
  have u0 := element_inside u (Nat.zero_le j) (by omega : j < 8)
  have u1 := element_inside u (Nat.zero_le (j + 1)) (by omega : j + 1 < 8)
  simp only [estimateAt, estimate, v1, u0, u1, Option.bind_eq_bind, Option.bind_some,
    correctEstimateAt_inside u v turn]

theorem multiplySubtractAt_inside (q : Nat) (v : Nat → Nat) (turn : j < 4) (count : Nat)
    (short : count ≤ 4) (u : Nat → Nat) (k borrow : Nat) :
    multiplySubtractAt q v j count u k borrow = some (multiplySubtract q v j count u k borrow) := by
  induction count generalizing u k borrow with
  | zero => rfl
  | succ i ih =>
    have word := element_inside v (by omega : 1 ≤ i + 1) (by omega : i + 1 < 5)
    have digit := element_inside u (Nat.zero_le (j + (i + 1))) (by omega : j + (i + 1) < 8)
    have written (value : Nat) :=
      store_inside u value (Nat.zero_le (j + (i + 1))) (by omega : j + (i + 1) < 8)
    simp only [multiplySubtractAt, multiplySubtract, word, digit, written, ih (by omega),
      Option.bind_eq_bind, Option.bind_some]

theorem addBackAt_inside (v : Nat → Nat) (turn : j < 4) (count : Nat) (short : count ≤ 4)
    (u : Nat → Nat) (borrow : Nat) :
    addBackAt v j count u borrow = some (addBack v j count u borrow) := by
  induction count generalizing u borrow with
  | zero => rfl
  | succ i ih =>
    have word := element_inside v (by omega : 1 ≤ i + 1) (by omega : i + 1 < 5)
    have digit := element_inside u (Nat.zero_le (j + (i + 1))) (by omega : j + (i + 1) < 8)
    have written (value : Nat) :=
      store_inside u value (Nat.zero_le (j + (i + 1))) (by omega : j + (i + 1) < 8)
    simp only [addBackAt, addBack, word, digit, written, ih (by omega), Option.bind_eq_bind,
      Option.bind_some]

theorem divideDigitAt_inside (v : Nat → Nat) (turn : j < 4) (short : maxv ≤ 4) (u : Nat → Nat) :
    divideDigitAt v maxv j u = some (divideDigit v maxv j u) := by
  have v1 := element_inside v (by decide : 1 ≤ 1) (by decide : 1 < 5)
  have lead (array : Nat → Nat) := element_inside array (Nat.zero_le j) (by omega : j < 8)
  have u1 := element_inside u (Nat.zero_le (j + 1)) (by omega : j + 1 < 8)
  have written (array : Nat → Nat) (value : Nat) :=
    store_inside array value (Nat.zero_le j) (by omega : j < 8)
  simp only [divideDigitAt, divideDigit, v1, lead, u1, written, estimateAt_inside u v turn,
    multiplySubtractAt_inside _ v turn maxv short, addBackAt_inside v turn maxv short,
    Option.bind_eq_bind, Option.bind_some]
  split_ifs <;> rfl

/-- The scan ends at a digit that is not zero, at the latest at the first. -/
theorem lastDigitAt_inside (first : 0 < v 1) (maxv : Nat) (positive : 0 < maxv) (short : maxv ≤ 4) :
    lastDigitAt v maxv = some (lastDigit v maxv) := by
  induction maxv with
  | zero => omega
  | succ maxv ih =>
    have digit := element_inside v (by omega : 1 ≤ maxv + 1) (by omega : maxv + 1 < 5)
    simp only [lastDigitAt, lastDigit, digit, Option.bind_eq_bind, Option.bind_some]
    split
    next zero =>
      refine ih (Nat.pos_of_ne_zero fun none => ?_) (by omega)
      subst none
      exact absurd zero first.ne'
    next => rfl

/-- One turn, with `rp` pointing to the word the digit belongs to. -/
theorem divideLoopAt_turn {u u' : Nat → Nat} {digit placed before : Nat} (short : maxv ≤ 4)
    (turn : j < 4) (count rp word : Nat) (result : Nat → Nat)
    (divided : divideDigit v maxv j u = (digit, u')) (moved : (if j = 2 then rp + 1 else rp) = word)
    (inside : word < 2) (shifted : (if j % 2 = 1 then digit else digit * 2 ^ 16 % 2 ^ 32) = placed)
    (held : result word = before) :
    divideLoopAt v maxv (count + 1) j rp u result =
      divideLoopAt v maxv count (j + 1) word u' (update result word (before ||| placed)) := by
  rw [divideLoopAt, moved, divideDigitAt_inside v turn short, divided]
  have read := element_inside result (Nat.zero_le word) inside
  have written (value : Nat) := store_inside result value (Nat.zero_le word) inside
  simp only [read, written, shifted, held, Option.bind_eq_bind, Option.bind_some]

def words (digit : Nat → Nat) : Nat → Nat :=
  update (update (update (update (fun _ => 0)
    0 (0 ||| digit 0 * 2 ^ 16 % 2 ^ 32))
    0 (0 ||| digit 0 * 2 ^ 16 % 2 ^ 32 ||| digit 1))
    1 (0 ||| digit 2 * 2 ^ 16 % 2 ^ 32))
    1 (0 ||| digit 2 * 2 ^ 16 % 2 ^ 32 ||| digit 3)

theorem divideLoopAt_four (short : maxv ≤ 4) (u : Nat → Nat → Nat) (digit : Nat → Nat)
    (turns : ∀ j, divideDigit v maxv j (u j) = (digit j, u (j + 1))) :
    divideLoopAt v maxv 4 0 0 (u 0) (fun _ => 0) = some (words digit) := by
  have even (q : Nat) : (if 0 = 1 then q else q * 2 ^ 16 % 2 ^ 32) = q * 2 ^ 16 % 2 ^ 32 :=
    if_neg (by decide)
  rw [divideLoopAt_turn short (by decide : 0 < 4) 3 0 0 _ (turns 0) rfl (by decide)
      (even (digit 0)) rfl,
    divideLoopAt_turn short (by decide : 1 < 4) 2 0 0 _ (turns 1) rfl (by decide) (if_pos rfl)
      (update_self _ _ _),
    divideLoopAt_turn short (by decide : 2 < 4) 1 0 1 _ (turns 2) rfl (by decide) (even (digit 2))
      rfl,
    divideLoopAt_turn short (by decide : 3 < 4) 0 1 1 _ (turns 3) rfl (by decide) (if_pos rfl)
      (update_self _ _ _)]
  rfl

theorem ofNat_word (high low : Nat) :
    UInt32.ofNat (0 ||| high * 2 ^ 16 % 2 ^ 32 ||| low) =
      UInt32.ofNat (high * 2 ^ 16) ||| UInt32.ofNat low := by
  rw [Nat.zero_or, UInt32.ofNat_or, UInt32.ofNat_mod_size]

theorem words_high (digit : Nat → Nat) :
    UInt32.ofNat (words digit 0) = UInt32.ofNat (digit 0 * 2 ^ 16) ||| UInt32.ofNat (digit 1) := by
  rw [words, update_of_ne (by decide), update_of_ne (by decide), update_self, ofNat_word]

theorem words_low (digit : Nat → Nat) :
    UInt32.ofNat (words digit 1) = UInt32.ofNat (digit 2 * 2 ^ 16) ||| UInt32.ofNat (digit 3) := by
  rw [words, update_self, ofNat_word]

theorem quotientWordsAt_inside (e1 : FltArith) {e2 : FltArith} (normal : e2.mantissa.Normalized) :
    quotientWordsAt e1 e2 = some (quotientWords e1 e2) := by
  have prepared := prepared_divisor normal
  have short := prepared.last
  have ran : divideLoopAt (divisor e2) (lastDigit (divisor e2) 4) 4 0 0 (dividend e1) (fun _ => 0) =
      some (words (digit e1 e2)) :=
    divideLoopAt_four short (running e1 e2) (digit e1 e2) fun j => Prod.ext rfl rfl
  have maxv : lastDigitAt (divisor e2) 4 = some (lastDigit (divisor e2) 4) :=
    lastDigitAt_inside prepared.first 4 (by decide) le_rfl
  have r0 : resultAt (words (digit e1 e2)) 0 = some (words (digit e1 e2) 0) :=
    element_inside _ (Nat.zero_le 0) (by decide)
  have r1 : resultAt (words (digit e1 e2)) 1 = some (words (digit e1 e2) 1) :=
    element_inside _ (Nat.zero_le 1) (by decide)
  rw [quotientWordsAt, maxv, Option.bind_eq_bind, Option.bind_some, ran, Option.bind_eq_bind,
    Option.bind_some, r0, Option.bind_some, r1, Option.bind_some, words_high, words_low, quotientWords_digits]

end AckFormal.Flt.DivisionBounds
