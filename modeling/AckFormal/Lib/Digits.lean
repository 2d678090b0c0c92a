import Mathlib.Algebra.BigOperators.Group.Finset.Basic
import Mathlib.Tactic.Ring

/-!
# Big-endian digit arrays

A digit array is a function from indices to digits.  `digitsValue base digits
start count` reads `count` digits from `start` on, the most significant first.
`multiplyRow` adds a multiple of one array to another, one digit at a time from
the least significant end, the way schoolbook multiplication does.
-/

namespace AckFormal.Lib.Digits

/-- The number denoted by `count` digits of `digits` from index `start`. -/
def digitsValue (base : Nat) (digits : Nat → Nat) (start : Nat) : Nat → Nat
  | 0 => 0
  | count + 1 => digitsValue base digits start count * base + digits (start + count)

@[simp] theorem digitsValue_zero (base : Nat) (digits : Nat → Nat) (start : Nat) :
    digitsValue base digits start 0 = 0 :=
  rfl

theorem digitsValue_succ (base : Nat) (digits : Nat → Nat) (start count : Nat) :
    digitsValue base digits start (count + 1) =
      digitsValue base digits start count * base + digits (start + count) :=
  rfl

theorem digitsValue_congr {base start count : Nat} {left right : Nat → Nat}
    (agree : ∀ index, start ≤ index → index < start + count → left index = right index) :
    digitsValue base left start count = digitsValue base right start count := by
  induction count with
  | zero => rfl
  | succ count ih =>
    rw [digitsValue_succ, digitsValue_succ, agree (start + count) (by omega) (by omega),
      ih fun index low high => agree index low (by omega)]

theorem digitsValue_lt {base : Nat} {digits : Nat → Nat} (start count : Nat)
    (bounded : ∀ index, digits index < base) :
    digitsValue base digits start count < base ^ count := by
  induction count with
  | zero => simp
  | succ count ih =>
    have digit := bounded (start + count)
    calc digitsValue base digits start count * base + digits (start + count)
        < digitsValue base digits start count * base + base := by omega
      _ = (digitsValue base digits start count + 1) * base := by ring
      _ ≤ base ^ count * base := Nat.mul_le_mul_right base ih
      _ = base ^ (count + 1) := (pow_succ base count).symm

/-- Digits split at any place: the upper ones weigh `base ^ low` more. -/
theorem digitsValue_add (base : Nat) (digits : Nat → Nat) (start high low : Nat) :
    digitsValue base digits start (high + low) =
      digitsValue base digits start high * base ^ low +
        digitsValue base digits (start + high) low := by
  induction low with
  | zero => simp
  | succ low ih =>
    rw [← Nat.add_assoc, digitsValue_succ, ih, digitsValue_succ, pow_succ]
    ring_nf

theorem digitsValue_head (base : Nat) (digits : Nat → Nat) (start count : Nat) :
    digitsValue base digits start (count + 1) =
      digits start * base ^ count + digitsValue base digits (start + 1) count := by
  rw [Nat.add_comm count 1, digitsValue_add]
  simp [digitsValue]

/-! ## Adding a multiple of one array to another -/

/-- Add `factor` times the first `count` digits of `words` to the digits of
`target` from `start` on, with the carry `carry` coming in at the bottom. -/
def multiplyRow (base factor : Nat) (words : Nat → Nat) (start : Nat) :
    Nat → (Nat → Nat) → Nat → (Nat → Nat) × Nat
  | 0, target, carry => (target, carry)
  | count + 1, target, carry =>
    let sum := target (start + count) + carry + factor * words count
    multiplyRow base factor words start count
      (Function.update target (start + count) (sum % base)) (sum / base)

theorem multiplyRow_frame (base factor : Nat) (words : Nat → Nat) (start count : Nat)
    (target : Nat → Nat) (carry index : Nat)
    (outside : index < start ∨ start + count ≤ index) :
    (multiplyRow base factor words start count target carry).1 index = target index := by
  induction count generalizing target carry with
  | zero => rfl
  | succ count ih =>
    rw [multiplyRow, ih _ _ (by omega), Function.update_of_ne (by omega)]

theorem update_lt {base : Nat} {digits : Nat → Nat} (bounded : ∀ index, digits index < base)
    {digit : Nat} (small : digit < base) (place index : Nat) :
    Function.update digits place digit index < base :=
  (Function.forall_update_iff digits fun _ digit => digit < base).mpr
    ⟨small, fun other _ => bounded other⟩ index

theorem multiplyRow_digit_lt {base : Nat} (factor : Nat) (words : Nat → Nat) (start count : Nat)
    (target : Nat → Nat) (carry : Nat) (positive : 0 < base)
    (bounded : ∀ index, target index < base) (index : Nat) :
    (multiplyRow base factor words start count target carry).1 index < base := by
  induction count generalizing target carry with
  | zero => exact bounded index
  | succ count ih => exact ih _ _ (update_lt bounded (Nat.mod_lt _ positive) _)

theorem sum_div_lt {base factor word digit carry : Nat} (factorDigit : factor < base)
    (wordDigit : word < base) (digitBound : digit < base) (carryDigit : carry < base) :
    (digit + carry + factor * word) / base < base := by
  rw [Nat.div_lt_iff_lt_mul (by omega)]
  have product : factor * word ≤ (base - 1) * (base - 1) := Nat.mul_le_mul (by omega) (by omega)
  obtain ⟨pred, rfl⟩ : ∃ pred, base = pred + 1 := ⟨base - 1, by omega⟩
  have expand : (pred + 1) * (pred + 1) = pred * pred + pred + pred + 1 := by ring
  simp only [Nat.add_sub_cancel] at product
  omega

theorem multiplyRow_carry_lt {base factor : Nat} (words : Nat → Nat) (start count : Nat)
    (target : Nat → Nat) (carry : Nat) (factorDigit : factor < base)
    (wordDigits : ∀ index, words index < base) (targetDigits : ∀ index, target index < base)
    (carryDigit : carry < base) :
    (multiplyRow base factor words start count target carry).2 < base := by
  induction count generalizing target carry with
  | zero => exact carryDigit
  | succ count ih =>
    refine ih _ _ (update_lt targetDigits (Nat.mod_lt _ (by omega)) _) ?_
    exact sum_div_lt factorDigit (wordDigits count) (targetDigits (start + count)) carryDigit

/-- What a row conserves: the digits written and the carry out of the top are
the old digits plus the carry in plus the multiple. -/
theorem multiplyRow_value (base factor : Nat) (words : Nat → Nat) (start count : Nat)
    (target : Nat → Nat) (carry : Nat) :
    (multiplyRow base factor words start count target carry).2 * base ^ count +
        digitsValue base (multiplyRow base factor words start count target carry).1 start count =
      digitsValue base target start count + carry + factor * digitsValue base words 0 count := by
  induction count generalizing target carry with
  | zero => simp [multiplyRow]
  | succ count ih =>
    have rest := ih
      (Function.update target (start + count)
        ((target (start + count) + carry + factor * words count) % base))
      ((target (start + count) + carry + factor * words count) / base)
    rw [multiplyRow, digitsValue_succ, multiplyRow_frame _ _ _ _ _ _ _ _ (Or.inr le_rfl),
      Function.update_self]
    have below : digitsValue base (Function.update target (start + count)
        ((target (start + count) + carry + factor * words count) % base)) start count =
        digitsValue base target start count :=
      digitsValue_congr fun index _ high => Function.update_of_ne (by omega) _ _
    rw [below] at rest
    rw [digitsValue_succ, digitsValue_succ, Nat.zero_add]
    generalize total : target (start + count) + carry + factor * words count = sum at rest ⊢
    generalize multiplyRow base factor words start count
      (Function.update target (start + count) (sum % base)) (sum / base) = row at rest ⊢
    calc row.2 * base ^ (count + 1) + (digitsValue base row.1 start count * base + sum % base)
        = (row.2 * base ^ count + digitsValue base row.1 start count) * base + sum % base := by
          ring
      _ = (digitsValue base target start count + sum / base +
            factor * digitsValue base words 0 count) * base + sum % base := by rw [rest]
      _ = (digitsValue base target start count +
            factor * digitsValue base words 0 count) * base +
            (base * (sum / base) + sum % base) := by ring
      _ = _ := by
          rw [Nat.div_add_mod, ← total]
          ring

end AckFormal.Lib.Digits
