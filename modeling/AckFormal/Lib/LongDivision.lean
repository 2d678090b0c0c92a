import AckFormal.Lib.Digits
import Mathlib.Tactic.Linarith

/-!
# Long division

Division of digit arrays, one digit of the quotient at a time.  A guess of the
digit is made from the leading digits and corrected by a test on one digit more;
it is then right or one too big, and the borrow of the subtraction tells which.
`subtractRow` takes a multiple of one array from another, one digit at a time
from the least significant end.
-/

namespace AckFormal.Lib.LongDivision

open Digits
open Function (update update_of_ne update_self)

/-! ## The guess

Dividend and divisor are cut at the same place, worth `place`. -/

variable {place top low head rest guess dividend divisor base : Nat}

/-- A guess that is too big for the leading parts is too big. -/
theorem too_big_of_leading (tooBig : top < guess * head) (fits : low < place) :
    top * place + low < guess * (head * place + rest) :=
  calc top * place + low < (top + 1) * place := by
        rw [Nat.succ_mul]
        omega
    _ ≤ guess * head * place := Nat.mul_le_mul_right place tooBig
    _ = guess * (head * place) := Nat.mul_assoc guess head place
    _ ≤ guess * (head * place + rest) := Nat.mul_le_mul_left guess (Nat.le_add_right _ _)

theorem one_too_big (fits : guess * head ≤ top) (few : guess ≤ head) (restFits : rest < place) :
    guess * (head * place + rest) ≤ top * place + low + (head * place + rest) :=
  calc guess * (head * place + rest) = guess * head * place + guess * rest := by ring
    _ ≤ top * place + head * place :=
        Nat.add_le_add (Nat.mul_le_mul_right place fits) (Nat.mul_le_mul few restFits.le)
    _ ≤ top * place + low + (head * place + rest) := by omega

/-- A guess that leaves a whole digit over in the leading parts fits. -/
theorem fits_of_gap {gap : Nat} (fits : guess * head + gap ≤ top) (few : guess ≤ gap)
    (restFits : rest < place) : guess * (head * place + rest) ≤ top * place + low :=
  calc guess * (head * place + rest) = guess * head * place + guess * rest := by ring
    _ ≤ guess * head * place + gap * place :=
        Nat.add_le_add_left (Nat.mul_le_mul few restFits.le) _
    _ = (guess * head + gap) * place := by ring
    _ ≤ top * place := Nat.mul_le_mul_right place fits
    _ ≤ top * place + low := Nat.le_add_right _ _

structure Guess (dividend divisor guess : Nat) : Prop where
  enough : dividend / divisor ≤ guess
  close : guess ≤ dividend / divisor + 1

theorem Guess.of_le (positive : 0 < divisor) (enough : dividend / divisor ≤ guess)
    (close : guess * divisor ≤ dividend + divisor) : Guess dividend divisor guess := by
  refine ⟨enough, ?_⟩
  rw [← Nat.add_div_right dividend positive, Nat.le_div_iff_mul_le positive]
  exact close

theorem quotient_lt_of_too_big (tooBig : dividend < guess * divisor) : dividend / divisor < guess :=
  Nat.div_lt_of_lt_mul (by rwa [Nat.mul_comm divisor guess])

/-! ## The subtraction -/

theorem digitsValue_tail_zero {digits : Nat → Nat} {start count : Nat}
    (zeros : ∀ index, start ≤ index → digits index = 0) :
    digitsValue base digits (0 + start) count = 0 := by
  induction count with
  | zero => rfl
  | succ count ih => rw [digitsValue_succ, ih, zeros _ (by omega), Nat.zero_mul]

/-- Take `factor` times the first `count` digits of `words` from the digits of
`target` from `start` on; it returns the digits, the high part of the last
product, and the borrow. -/
def subtractRow (base factor : Nat) (words : Nat → Nat) (start : Nat) :
    Nat → (Nat → Nat) → Nat → Nat → (Nat → Nat) × Nat × Nat
  | 0, target, carry, borrow => (target, carry, borrow)
  | count + 1, target, carry, borrow =>
    let product := factor * words count + carry + borrow
    let digit := target (start + count)
    subtractRow base factor words start count
      (update target (start + count) ((digit + base - product % base) % base))
      (product / base) (if product % base > digit then 1 else 0)

theorem subtractRow_frame (base factor : Nat) (words : Nat → Nat) (start count : Nat)
    (target : Nat → Nat) (carry borrow index : Nat)
    (outside : index < start ∨ start + count ≤ index) :
    (subtractRow base factor words start count target carry borrow).1 index = target index := by
  induction count generalizing target carry borrow with
  | zero => rfl
  | succ count ih =>
    rw [subtractRow, ih _ _ _ (by omega), update_of_ne (by omega)]

theorem subtractRow_digit_lt (factor : Nat) (words : Nat → Nat) (start count : Nat)
    (target : Nat → Nat) (carry borrow : Nat) (positive : 0 < base)
    (bounded : ∀ index, target index < base) (index : Nat) :
    (subtractRow base factor words start count target carry borrow).1 index < base := by
  induction count generalizing target carry borrow with
  | zero => exact bounded index
  | succ count ih => exact ih _ _ _ (update_lt bounded (Nat.mod_lt _ positive) _)

theorem subtractRow_borrow_le (base factor : Nat) (words : Nat → Nat) (start count : Nat)
    (target : Nat → Nat) (carry borrow : Nat) (bit : borrow ≤ 1) :
    (subtractRow base factor words start count target carry borrow).2.2 ≤ 1 := by
  induction count generalizing target carry borrow with
  | zero => exact bit
  | succ count ih =>
    refine ih _ _ _ ?_
    split <;> decide

theorem subtractRow_carry_lt {factor : Nat} (words : Nat → Nat) (start count : Nat)
    (target : Nat → Nat) (carry borrow : Nat) (proper : 1 < base) (factorDigit : factor < base)
    (wordDigits : ∀ index, words index < base) (carryDigit : carry < base) (bit : borrow ≤ 1) :
    (subtractRow base factor words start count target carry borrow).2.1 < base := by
  induction count generalizing target carry borrow with
  | zero => exact carryDigit
  | succ count ih =>
    refine ih _ _ _ ?_ (by split <;> decide)
    rw [show factor * words count + carry + borrow = borrow + carry + factor * words count by ring]
    exact sum_div_lt factorDigit (wordDigits count) (bit.trans_lt proper) carryDigit

/-- One digit of the subtraction: what it lacks is borrowed from the next. -/
theorem borrowed_digit {digit product : Nat} (digitBound : digit < base)
    (productBound : product < base) :
    (digit + base - product) % base + product =
      digit + (if product > digit then 1 else 0) * base := by
  split
  next less =>
    rw [Nat.mod_eq_of_lt (by omega)]
    omega
  next enough =>
    rw [show digit + base - product = digit - product + base by omega, Nat.add_mod_right,
      Nat.mod_eq_of_lt (by omega)]
    omega

/-- What a row conserves: the digits written, the multiple and what came in make
up the old digits and what is still to be taken from the next digit. -/
theorem subtractRow_value (base factor : Nat) (words : Nat → Nat) (start count : Nat)
    (target : Nat → Nat) (carry borrow : Nat) (bounded : ∀ index, target index < base) :
    digitsValue base (subtractRow base factor words start count target carry borrow).1 start count +
        factor * digitsValue base words 0 count + carry + borrow =
      digitsValue base target start count +
        ((subtractRow base factor words start count target carry borrow).2.1 +
          (subtractRow base factor words start count target carry borrow).2.2) * base ^ count := by
  induction count generalizing target carry borrow with
  | zero => simp [subtractRow]
  | succ count ih =>
    have digitBound := bounded (start + count)
    have positive : 0 < base := Nat.zero_lt_of_lt digitBound
    rw [subtractRow]
    generalize total : factor * words count + carry + borrow = product
    have written := borrowed_digit digitBound (Nat.mod_lt product positive)
    generalize (if product % base > target (start + count) then 1 else 0) = next at written ⊢
    generalize digit : (target (start + count) + base - product % base) % base = new
      at written ⊢
    have newBound : new < base := digit ▸ Nat.mod_lt _ positive
    have rest := ih (update target (start + count) new) (product / base) next
      (update_lt bounded newBound _)
    have below : digitsValue base (update target (start + count) new) start count =
        digitsValue base target start count :=
      digitsValue_congr fun index _ high => update_of_ne (by omega) _ _
    have top : (subtractRow base factor words start count
        (update target (start + count) new) (product / base) next).1 (start + count) =
        new := by
      rw [subtractRow_frame _ _ _ _ _ _ _ _ _ (Or.inr le_rfl), update_self]
    rw [below] at rest
    rw [digitsValue_succ, digitsValue_succ, digitsValue_succ, Nat.zero_add, top]
    generalize subtractRow base factor words start count
      (update target (start + count) new) (product / base) next = row at rest ⊢
    calc digitsValue base row.1 start count * base + new +
          factor * (digitsValue base words 0 count * base + words count) + carry + borrow
        = (digitsValue base row.1 start count + factor * digitsValue base words 0 count) * base +
            (factor * words count + carry + borrow) + new := by ring
      _ = (digitsValue base row.1 start count + factor * digitsValue base words 0 count +
            product / base) * base + (new + product % base) := by
          rw [total]
          conv_lhs => rw [← Nat.div_add_mod product base]
          ring
      _ = (digitsValue base row.1 start count + factor * digitsValue base words 0 count +
            product / base + next) * base + target (start + count) := by
          rw [written]
          ring
      _ = _ := by
          rw [rest, pow_succ]
          ring

section

variable {base factor : Nat} {words : Nat → Nat} {start count total : Nat} (target : Nat → Nat)
include target

theorem subtractRow_value_short (bounded : ∀ index, target index < base) (short : count ≤ total)
    (zeros : ∀ index, count ≤ index → words index = 0) :
    digitsValue base (subtractRow base factor words start count target 0 0).1 start total +
        factor * digitsValue base words 0 total =
      digitsValue base target start total +
        ((subtractRow base factor words start count target 0 0).2.1 +
          (subtractRow base factor words start count target 0 0).2.2) * base ^ total := by
  obtain ⟨tail, rfl⟩ := Nat.exists_eq_add_of_le short
  have row := subtractRow_value base factor words start count target 0 0 bounded
  have kept : digitsValue base (subtractRow base factor words start count target 0 0).1
      (start + count) tail = digitsValue base target (start + count) tail :=
    digitsValue_congr fun index low _ => subtractRow_frame _ _ _ _ _ _ _ _ _ (Or.inr low)
  rw [digitsValue_add, digitsValue_add, digitsValue_add, kept, digitsValue_tail_zero zeros]
  generalize subtractRow base factor words start count target 0 0 = result at row ⊢
  calc digitsValue base result.1 start count * base ^ tail +
        digitsValue base target (start + count) tail +
        factor * (digitsValue base words 0 count * base ^ tail + 0)
      = (digitsValue base result.1 start count + factor * digitsValue base words 0 count + 0 + 0) *
          base ^ tail + digitsValue base target (start + count) tail := by ring
    _ = _ := by
        rw [row, pow_add]
        ring

theorem multiplyRow_value_short (short : count ≤ total)
    (zeros : ∀ index, count ≤ index → words index = 0) :
    (multiplyRow base factor words start count target 0).2 * base ^ total +
        digitsValue base (multiplyRow base factor words start count target 0).1 start total =
      digitsValue base target start total + factor * digitsValue base words 0 total := by
  obtain ⟨tail, rfl⟩ := Nat.exists_eq_add_of_le short
  have row := multiplyRow_value base factor words start count target 0
  have kept : digitsValue base (multiplyRow base factor words start count target 0).1
      (start + count) tail = digitsValue base target (start + count) tail :=
    digitsValue_congr fun index low _ => multiplyRow_frame _ _ _ _ _ _ _ _ (Or.inr low)
  rw [digitsValue_add, digitsValue_add, digitsValue_add, kept, digitsValue_tail_zero zeros]
  generalize multiplyRow base factor words start count target 0 = result at row ⊢
  calc result.2 * base ^ (count + tail) + (digitsValue base result.1 start count * base ^ tail +
        digitsValue base target (start + count) tail)
      = (result.2 * base ^ count + digitsValue base result.1 start count) * base ^ tail +
          digitsValue base target (start + count) tail := by
        ring
    _ = _ := by
        rw [row]
        ring

end

/-! ## The digit -/

/-- Without a borrow the guess was right, and what is left is the remainder. -/
theorem Guess.exact {left : Nat} (known : Guess dividend divisor guess)
    (taken : left + guess * divisor = dividend) (positive : 0 < divisor) :
    guess = dividend / divisor ∧ left = dividend % divisor := by
  have most : guess ≤ dividend / divisor := by
    rw [Nat.le_div_iff_mul_le positive]
    omega
  have same : guess = dividend / divisor := le_antisymm most known.enough
  refine ⟨same, ?_⟩
  have split := Nat.div_add_mod dividend divisor
  rw [Nat.mul_comm, ← same] at split
  omega

/-- With a borrow it was one too big; adding the divisor once gives the
remainder, beyond the digit that was borrowed. -/
theorem Guess.corrected {left whole : Nat} (known : Guess dividend divisor guess)
    (taken : left + guess * divisor = dividend + whole) (fits : left < whole) :
    guess - 1 = dividend / divisor ∧ left + divisor = dividend % divisor + whole := by
  have above : dividend / divisor < guess := quotient_lt_of_too_big (by omega)
  have same : guess = dividend / divisor + 1 := le_antisymm known.close above
  refine ⟨by rw [same, Nat.add_sub_cancel], ?_⟩
  have split := Nat.div_add_mod dividend divisor
  rw [same, Nat.succ_mul] at taken
  rw [Nat.mul_comm] at split
  omega

end AckFormal.Lib.LongDivision
