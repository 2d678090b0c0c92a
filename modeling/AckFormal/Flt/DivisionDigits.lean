import AckFormal.Flt.Division
import AckFormal.Lib.LongDivision

/-!
# The digits of a quotient

Each turn of the loop in `flt_div` takes a window of five digits of the
dividend, from `u_p` on.  The estimate of the digit is right or one too big, so
that after the subtraction, and the addition in the rare case of a borrow, the
digit is the quotient of the window and the window holds the remainder.
-/

namespace AckFormal.Flt.DivisionDigits

open Mantissa Number FltArith Operations Division Lib.Digits Lib.LongDivision

/-- What the loop knows of the divisor in `v[1..4]`: the digits behind `maxv`
are zero, and the first one is not. -/
structure Prepared (v : Nat → Nat) (maxv : Nat) : Prop where
  digits : ∀ index, v index < 2 ^ 16
  first : 0 < v 1
  last : maxv ≤ 4
  zeros : ∀ index, maxv < index → v index = 0

def divisorValue (v : Nat → Nat) : Nat := digitsValue (2 ^ 16) v 1 4

def window (u : Nat → Nat) (j : Nat) : Nat := digitsValue (2 ^ 16) u j 5

theorem window_eq (u : Nat → Nat) (j : Nat) :
    window u j = u j * 2 ^ 64 + digitsValue (2 ^ 16) u (j + 1) 4 :=
  digitsValue_head (2 ^ 16) u j 4

/-! ## The estimate -/

/-- A window and a divisor, cut behind the digits the estimate looks at. -/
structure Cut (window divisor v1 v2 head next : Nat) : Prop where
  window : ∃ low, low < 2 ^ 32 ∧ window = (head * 2 ^ 16 + next) * 2 ^ 32 + low
  divisor : ∃ low, low < 2 ^ 32 ∧ divisor = (v1 * 2 ^ 16 + v2) * 2 ^ 32 + low
  positive : 0 < v1
  second : v2 < 2 ^ 16
  next : next < 2 ^ 16

namespace Cut

variable {window divisor v1 v2 head next q : Nat}

variable (cut : Cut window divisor v1 v2 head next)
include cut

theorem divisor_positive : 0 < divisor := by
  obtain ⟨low, -, rfl⟩ := cut.divisor
  have := cut.positive
  omega

theorem earlier :
    (∃ low, low < 2 ^ 48 ∧ window = head * 2 ^ 48 + low) ∧
      ∃ low, low < 2 ^ 48 ∧ divisor = v1 * 2 ^ 48 + low := by
  obtain ⟨low, lowBound, rfl⟩ := cut.window
  obtain ⟨rest, restBound, rfl⟩ := cut.divisor
  have nextBound := cut.next
  have secondBound := cut.second
  exact ⟨⟨next * 2 ^ 32 + low, by omega, by omega⟩, ⟨v2 * 2 ^ 32 + rest, by omega, by omega⟩⟩

theorem lt_of_head (tooBig : head < q * v1) :
    window / divisor < q := by
  obtain ⟨⟨low, lowBound, rfl⟩, rest, -, rfl⟩ := cut.earlier
  exact quotient_lt_of_too_big (too_big_of_leading tooBig lowBound)

theorem lt_of_test
    (tooBig : head * 2 ^ 16 + next < q * (v1 * 2 ^ 16 + v2)) : window / divisor < q := by
  obtain ⟨low, lowBound, rfl⟩ := cut.window
  obtain ⟨rest, -, rfl⟩ := cut.divisor
  exact quotient_lt_of_too_big (too_big_of_leading tooBig lowBound)

theorem guess_of_test (few : q < 2 ^ 16)
    (enough : window / divisor ≤ q) (fits : q * (v1 * 2 ^ 16 + v2) ≤ head * 2 ^ 16 + next) :
    Guess window divisor q := by
  refine Guess.of_le cut.divisor_positive enough ?_
  have positive := cut.positive
  obtain ⟨low, -, rfl⟩ := cut.window
  obtain ⟨rest, restBound, rfl⟩ := cut.divisor
  exact one_too_big fits (by omega) restBound

theorem guess_of_gap (few : q < 2 ^ 16)
    (enough : window / divisor ≤ q) (fits : q * v1 + 2 ^ 16 ≤ head) : Guess window divisor q := by
  refine Guess.of_le cut.divisor_positive enough ?_
  obtain ⟨⟨low, -, rfl⟩, rest, restBound, rfl⟩ := cut.earlier
  exact (fits_of_gap fits few.le restBound).trans (Nat.le_add_right _ _)

end Cut

variable {v u : Nat → Nat} {maxv j : Nat}

/-- The correction stops at a guess that is right or one too big; `temp` is what
the guess leaves of the two leading digits. -/
theorem correctEstimate_spec {window divisor head next : Nat}
    (cut : Cut window divisor (v 1) (v 2) head next) (headBound : head < 2 ^ 32) (q temp : Nat)
    (balance : temp + q * v 1 = head) (few : q < 2 ^ 16) (enough : window / divisor ≤ q) :
    Guess window divisor (correctEstimate v next q temp) ∧
      correctEstimate v next q temp < 2 ^ 16 := by
  induction q generalizing temp with
  | zero => exact ⟨⟨enough, Nat.zero_le _⟩, few⟩
  | succ q ih =>
    have second := cut.second
    have nextBound := cut.next
    have product : v 2 * (q + 1) < 2 ^ 32 :=
      lt_of_le_of_lt (Nat.mul_le_mul (Nat.le_pred_of_lt second) few.le) (by decide)
    have scaled : (q + 1) * (v 1 * 2 ^ 16 + v 2) = (q + 1) * v 1 * 2 ^ 16 + v 2 * (q + 1) := by
      ring
    rw [correctEstimate, Nat.mod_eq_of_lt product]
    split
    next test =>
      obtain ⟨small, above⟩ := test
      rw [Nat.mod_eq_of_lt (by omega : temp * 2 ^ 16 + next < 2 ^ 32)] at above
      have tooBig : head * 2 ^ 16 + next < (q + 1) * (v 1 * 2 ^ 16 + v 2) :=
        calc head * 2 ^ 16 + next = (q + 1) * v 1 * 2 ^ 16 + (temp * 2 ^ 16 + next) := by
              rw [← balance]
              ring
          _ < (q + 1) * v 1 * 2 ^ 16 + v 2 * (q + 1) := Nat.add_lt_add_left above _
          _ = (q + 1) * (v 1 * 2 ^ 16 + v 2) := scaled.symm
      have less : window / divisor < q + 1 := cut.lt_of_test tooBig
      have step : (q + 1) * v 1 = q * v 1 + v 1 := Nat.succ_mul q (v 1)
      rw [Nat.mod_eq_of_lt (by omega : temp + v 1 < 2 ^ 32)]
      exact ih (temp + v 1) (by omega) (by omega) (Nat.le_of_lt_succ less)
    next kept =>
      refine ⟨?_, few⟩
      by_cases small : temp < 2 ^ 16
      · refine cut.guess_of_test few enough ?_
        omega
      · exact cut.guess_of_gap few enough (by omega)

theorem cut_digits (prepared : Prepared v maxv) (digits : ∀ index, u index < 2 ^ 16) (j : Nat) :
    Cut (window u j) (divisorValue v) (v 1) (v 2) (u j * 2 ^ 16 + u (j + 1)) (u (j + 2)) := by
  have u3 := digits (j + 3)
  have u4 := digits (j + 4)
  have v3 := prepared.digits 3
  have v4 := prepared.digits 4
  refine ⟨⟨u (j + 3) * 2 ^ 16 + u (j + 4), by omega, ?_⟩, ⟨v 3 * 2 ^ 16 + v 4, by omega, ?_⟩,
    prepared.first, prepared.digits 2, digits (j + 2)⟩
  · simp only [window, digitsValue, Nat.add_zero]
    omega
  · simp only [divisorValue, digitsValue, Nat.reduceAdd]
    omega

/-- The estimate is the next digit of the quotient, or one more. -/
theorem estimate_spec (prepared : Prepared v maxv) (digits : ∀ index, u index < 2 ^ 16)
    (small : window u j < divisorValue v * 2 ^ 16) :
    Guess (window u j) (divisorValue v) (estimate u v j) ∧ estimate u v j < 2 ^ 16 := by
  have cut := cut_digits prepared digits j
  have u0 := digits j
  have u1 := digits (j + 1)
  have first := prepared.first
  have one : (if v 1 = 1 then u j * 2 ^ 16 + u (j + 1) else (u j * 2 ^ 16 + u (j + 1)) / v 1) =
      (u j * 2 ^ 16 + u (j + 1)) / v 1 := by
    split
    next single => rw [single, Nat.div_one]
    next => rfl
  -- the guess the correction starts from
  obtain ⟨q, start, few, enough, leaves⟩ : ∃ q,
      (if u j ≥ v 1 then 0xFFFF else (u j * 2 ^ 16 + u (j + 1)) / v 1) = q ∧ q < 2 ^ 16 ∧
        window u j / divisorValue v ≤ q ∧ q * v 1 ≤ u j * 2 ^ 16 + u (j + 1) := by
    split
    next full =>
      refine ⟨0xFFFF, rfl, by decide, ?_, by omega⟩
      exact Nat.le_of_lt_succ (Nat.div_lt_of_lt_mul small)
    next less =>
      refine ⟨_, rfl, ?_, ?_, Nat.div_mul_le_self _ _⟩
      · rw [Nat.div_lt_iff_lt_mul first]
        omega
      · refine Nat.le_of_lt_succ (cut.lt_of_head ?_)
        rw [Nat.succ_mul]
        exact Nat.lt_div_mul_add first
  unfold estimate
  dsimp only
  rw [one, start]
  exact correctEstimate_spec cut (by omega) q _ (by omega) few enough

/-! ## The subtraction and the addition -/

theorem multiplySubtract_eq_subtractRow {q : Nat} (j count : Nat) (u : Nat → Nat) (k borrow : Nat)
    (factor : q < 2 ^ 16) (words : ∀ index, v index < 2 ^ 16) (carry : k < 2 ^ 16)
    (bit : borrow ≤ 1) :
    multiplySubtract q v j count u k borrow =
      subtractRow (2 ^ 16) q (fun index => v (index + 1)) (j + 1) count u k borrow := by
  induction count generalizing u k borrow with
  | zero => rfl
  | succ count ih =>
    have product : q * v (count + 1) ≤ 65535 * 65535 :=
      Nat.mul_le_mul (Nat.le_pred_of_lt factor) (Nat.le_pred_of_lt (words (count + 1)))
    have word : q * v (count + 1) + k + borrow < 2 ^ 32 := by omega
    have place : j + (count + 1) = j + 1 + count := by omega
    rw [multiplySubtract, subtractRow, Nat.mod_eq_of_lt word, place]
    exact ih _ _ _ (by omega) (by split <;> decide)

theorem addBack_eq_multiplyRow (v : Nat → Nat) (j count : Nat) (u : Nat → Nat) (borrow : Nat) :
    addBack v j count u borrow =
      multiplyRow (2 ^ 16) 1 (fun index => v (index + 1)) (j + 1) count u borrow := by
  induction count generalizing u borrow with
  | zero => rfl
  | succ count ih =>
    have place : j + (count + 1) = j + 1 + count := by omega
    have sum : v (count + 1) + u (j + 1 + count) + borrow =
        u (j + 1 + count) + borrow + 1 * v (count + 1) := by omega
    rw [addBack, multiplyRow, place, sum]
    exact ih _ _

theorem divisorValue_words (v : Nat → Nat) :
    digitsValue (2 ^ 16) (fun index => v (index + 1)) 0 4 = divisorValue v := by
  simp only [divisorValue, digitsValue]

/-- What the loops leave of the digits: they are digits, and none outside the
window has changed. -/
structure Kept (u u' : Nat → Nat) (j : Nat) : Prop where
  digits : ∀ index, u' index < 2 ^ 16
  outside : ∀ index, index < j ∨ j + 5 ≤ index → u' index = u index

theorem Kept.trans {u' u'' : Nat → Nat} (first : Kept u u' j) (second : Kept u' u'' j) :
    Kept u u'' j :=
  ⟨second.digits, fun index out => (second.outside index out).trans (first.outside index out)⟩

theorem Kept.update {u' : Nat → Nat} {digit : Nat} (kept : Kept u u' j) (small : digit < 2 ^ 16) :
    Kept u (Function.update u' j digit) j := by
  refine ⟨update_lt kept.digits small _, fun index out => ?_⟩
  · rw [Function.update_of_ne (by omega)]
    exact kept.outside index out

theorem window_update (u : Nat → Nat) (j digit : Nat) :
    window (Function.update u j digit) j = digit * 2 ^ 64 + digitsValue (2 ^ 16) u (j + 1) 4 := by
  have rest : digitsValue (2 ^ 16) (Function.update u j digit) (j + 1) 4 =
      digitsValue (2 ^ 16) u (j + 1) 4 :=
    digitsValue_congr fun index low _ => Function.update_of_ne (by omega) _ _
  rw [window_eq, Function.update_self, rest]

/-- The digits after the subtraction of `q` times the divisor, and whether it
went below zero. -/
def subtracted (q : Nat) (v : Nat → Nat) (maxv j : Nat) (u : Nat → Nat) : (Nat → Nat) × Bool :=
  let row := multiplySubtract q v j maxv u 0 0
  let k := row.2.1 + row.2.2
  (Function.update row.1 j ((row.1 j + 2 ^ 32 - k) % 2 ^ 16), decide (row.1 j < k))

/-- The divisor times a digit is subtracted, with a borrow at the end. -/
theorem subtracted_spec {q : Nat} (prepared : Prepared v maxv) (digits : ∀ index, u index < 2 ^ 16)
    (j : Nat) (few : q < 2 ^ 16) :
    Kept u (subtracted q v maxv j u).1 j ∧
      window (subtracted q v maxv j u).1 j + q * divisorValue v =
        window u j + (if (subtracted q v maxv j u).2 then 2 ^ 80 else 0) := by
  have eq_row := multiplySubtract_eq_subtractRow j maxv u 0 0 few prepared.digits (by decide)
    (by decide)
  have frame := subtractRow_frame (2 ^ 16) q (fun index => v (index + 1)) (j + 1) maxv u 0 0
  have digit := subtractRow_digit_lt q (fun index => v (index + 1)) (j + 1) maxv u 0 0
    (by decide : 0 < 2 ^ 16) digits
  have carry := subtractRow_carry_lt (fun index => v (index + 1)) (j + 1) maxv u 0 0
    (by decide : 1 < 2 ^ 16) few (fun index => prepared.digits (index + 1)) (by decide) (by decide)
  have bit := subtractRow_borrow_le (2 ^ 16) q (fun index => v (index + 1)) (j + 1) maxv u 0 0
  have value := @subtractRow_value_short (2 ^ 16) q (fun index => v (index + 1)) (j + 1) maxv 4 u
    digits prepared.last fun index high => prepared.zeros (index + 1) (by omega)
  rw [divisorValue_words] at value
  have top := frame j (Or.inl (Nat.lt_succ_self j))
  have last := prepared.last
  have lead := digits j
  unfold subtracted
  rw [eq_row]
  generalize subtractRow (2 ^ 16) q (fun index => v (index + 1)) (j + 1) maxv u 0 0 = row at *
  have kept : Kept u row.1 j :=
    ⟨digit, fun index out => frame index (out.imp (by omega) (by omega))⟩
  refine ⟨kept.update (Nat.mod_lt _ (by decide)), ?_⟩
  rw [window_update, window_eq u j]
  simp only [decide_eq_true_eq]
  split
  · omega
  · omega

def addedBack (v : Nat → Nat) (maxv j : Nat) (u : Nat → Nat) : Nat → Nat :=
  let row := addBack v j maxv u 0
  Function.update row.1 j ((row.1 j + row.2) % 2 ^ 16)

theorem addedBack_spec (prepared : Prepared v maxv) (digits : ∀ index, u index < 2 ^ 16) (j : Nat) :
    Kept u (addedBack v maxv j u) j ∧
      window (addedBack v maxv j u) j = (window u j + divisorValue v) % 2 ^ 80 := by
  have frame := multiplyRow_frame (2 ^ 16) 1 (fun index => v (index + 1)) (j + 1) maxv u 0
  have digit := multiplyRow_digit_lt 1 (fun index => v (index + 1)) (j + 1) maxv u 0
    (by decide : 0 < 2 ^ 16) digits
  have value := @multiplyRow_value_short (2 ^ 16) 1 (fun index => v (index + 1)) (j + 1) maxv 4 u
    prepared.last fun index high => prepared.zeros (index + 1) (by omega)
  rw [divisorValue_words] at value
  have top := frame j (Or.inl (Nat.lt_succ_self j))
  have last := prepared.last
  unfold addedBack
  rw [addBack_eq_multiplyRow]
  generalize multiplyRow (2 ^ 16) 1 (fun index => v (index + 1)) (j + 1) maxv u 0 = row at *
  have rest := digitsValue_lt (j + 1) 4 digit
  have kept : Kept u row.1 j :=
    ⟨digit, fun index out => frame index (out.imp (by omega) (by omega))⟩
  refine ⟨kept.update (Nat.mod_lt _ (by decide)), ?_⟩
  rw [window_update, window_eq u j, top]
  generalize digitsValue (2 ^ 16) row.1 (j + 1) 4 = sum at *
  generalize digitsValue (2 ^ 16) u (j + 1) 4 = given at *
  have whole : u j * 2 ^ 64 + given + divisorValue v = (u j + row.2) * 2 ^ 64 + sum := by
    rw [Nat.add_assoc, ← Nat.one_mul (divisorValue v), ← value]
    ring
  rw [whole]
  exact (high_mod (u j + row.2) rest).symm
where
  high_mod (high : Nat) {low : Nat} (fits : low < (2 ^ 16) ^ 4) :
      (high * 2 ^ 64 + low) % 2 ^ 80 = high % 2 ^ 16 * 2 ^ 64 + low := by
    omega

/-! ## One turn of the loop -/

theorem divideDigit_eq (v : Nat → Nat) (maxv j : Nat) (u : Nat → Nat) :
    divideDigit v maxv j u =
      if u j = 0 ∧ u (j + 1) < v 1 then (0, u)
      else if estimate u v j = 0 then (0, u)
      else if (subtracted (estimate u v j) v maxv j u).2 then
        (estimate u v j - 1, addedBack v maxv j (subtracted (estimate u v j) v maxv j u).1)
      else (estimate u v j, (subtracted (estimate u v j) v maxv j u).1) := by
  unfold divideDigit subtracted addedBack
  simp only [decide_eq_true_eq]

/-- The digit is the quotient of the window, and the window then holds the
remainder. -/
theorem divideDigit_spec (prepared : Prepared v maxv) (digits : ∀ index, u index < 2 ^ 16)
    (small : window u j < divisorValue v * 2 ^ 16) :
    (divideDigit v maxv j u).1 = window u j / divisorValue v ∧
      window (divideDigit v maxv j u).2 j = window u j % divisorValue v ∧
      Kept u (divideDigit v maxv j u).2 j := by
  have cut := cut_digits prepared digits j
  have positive := cut.divisor_positive
  obtain ⟨known, few⟩ := estimate_spec prepared digits small
  have same : Kept u u j := ⟨digits, fun _ _ => rfl⟩
  have zero (below : window u j / divisorValue v = 0) :
      (0, u).1 = window u j / divisorValue v ∧
        window (0, u).2 j = window u j % divisorValue v ∧ Kept u (0, u).2 j := by
    have less : window u j < divisorValue v := (Nat.div_eq_zero_iff_lt positive).mp below
    exact ⟨below.symm, (Nat.mod_eq_of_lt less).symm, same⟩
  rw [divideDigit_eq]
  split
  next skipped =>
    refine zero (Nat.lt_one_iff.mp (cut.lt_of_head ?_))
    omega
  next =>
    split
    next none =>
      refine zero (Nat.le_zero.mp ?_)
      rw [← none]
      exact known.enough
    next =>
      obtain ⟨kept, taken⟩ := subtracted_spec prepared digits j few
      split
      next tooBig =>
        rw [if_pos tooBig] at taken
        obtain ⟨restored, added⟩ := addedBack_spec prepared kept.digits j
        obtain ⟨digit, left⟩ := known.corrected taken (digitsValue_lt j 5 kept.digits)
        refine ⟨digit, ?_, kept.trans restored⟩
        have remainder := Nat.mod_lt (window u j) positive
        have divisorBound : divisorValue v < 2 ^ 64 := digitsValue_lt 1 4 prepared.digits
        rw [added, left, Nat.add_mod_right, Nat.mod_eq_of_lt (by omega)]
      next fits =>
        rw [if_neg fits, Nat.add_zero] at taken
        obtain ⟨digit, left⟩ := known.exact taken positive
        exact ⟨digit, left, kept⟩

end AckFormal.Flt.DivisionDigits
