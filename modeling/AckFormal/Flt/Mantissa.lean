import Mathlib.Tactic.Ring
import Mathlib.Data.Nat.Bitwise

/-!
# The 64-bit mantissa

`struct flt_mantissa` keeps the 64 bits of a mantissa in two 32-bit halves.
The operations work on the halves; each one is described here by what it does
to the 64-bit number the halves denote.
-/

namespace AckFormal.Flt.Mantissa

open UInt32 (toNat_add toNat_inj toNat_ofNat' toNat_or)

@[ext] structure FltMantissa where
  h32 : UInt32
  l32 : UInt32
  deriving DecidableEq

namespace FltMantissa

def value (m : FltMantissa) : Nat :=
  m.h32.toNat * 2 ^ 32 + m.l32.toNat

def zero : FltMantissa := ⟨0, 0⟩

theorem value_lt (m : FltMantissa) : m.value < 2 ^ 64 := by
  have high := m.h32.toNat_lt
  have low := m.l32.toNat_lt
  unfold value
  omega

variable {m : FltMantissa}

theorem value_eq_zero : m.value = 0 ↔ m = zero := by
  constructor
  · intro empty
    unfold value at empty
    have high : m.h32.toNat = 0 := by omega
    have low : m.l32.toNat = 0 := by omega
    exact FltMantissa.ext (toNat_inj.mp high) (toNat_inj.mp low)
  · rintro rfl
    rfl

theorem or_eq_zero : m.h32 ||| m.l32 = 0 ↔ m = zero := by
  constructor
  · intro empty
    have bits := congrArg UInt32.toNat empty
    rw [toNat_or] at bits
    obtain ⟨high, low⟩ := Nat.or_eq_zero_iff.mp bits
    refine value_eq_zero.mp ?_
    unfold value
    omega
  · rintro rfl
    rfl

@[simp] theorem value_zero : zero.value = 0 := rfl

theorem value_inj {a b : FltMantissa} (same : a.value = b.value) : a = b := by
  have aLow := a.l32.toNat_lt
  have bLow := b.l32.toNat_lt
  unfold value at same
  have high : a.h32.toNat = b.h32.toNat := by omega
  have low : a.l32.toNat = b.l32.toNat := by omega
  exact FltMantissa.ext (toNat_inj.mp high) (toNat_inj.mp low)

def Normalized (m : FltMantissa) : Prop :=
  2 ^ 63 ≤ m.value

instance (m : FltMantissa) : Decidable m.Normalized :=
  inferInstanceAs (Decidable (2 ^ 63 ≤ m.value))

theorem normalized_iff_high : m.Normalized ↔ 2 ^ 31 ≤ m.h32.toNat := by
  have low := m.l32.toNat_lt
  unfold Normalized value
  omega

end FltMantissa

open FltMantissa

/-! ## Addition -/

/-- `flt_b64_add`: the sum replaces the first operand; the result tells whether
a carry left bit 63. -/
def fltB64Add (e1 e2 : FltMantissa) : FltMantissa × Bool :=
  let overflow := decide (0xFFFFFFFF - e1.h32 < e2.h32)
  let h := e1.h32 + e2.h32
  let carry := decide (0xFFFFFFFF - e1.l32 < e2.l32)
  let l := e1.l32 + e2.l32
  if carry then
    if h + 1 = 0 then (⟨h + 1, l⟩, true) else (⟨h + 1, l⟩, overflow)
  else (⟨h, l⟩, overflow)

theorem complement_lt_iff (a b : UInt32) :
    0xFFFFFFFF - a < b ↔ 2 ^ 32 ≤ a.toNat + b.toNat := by
  have aBound := a.toNat_lt
  rw [UInt32.lt_iff_toNat_lt, UInt32.toNat_sub_of_le _ _ ?_]
  · change 4294967295 - a.toNat < b.toNat ↔ _
    omega
  · rw [UInt32.le_iff_toNat_le]
    change a.toNat ≤ 4294967295
    omega

theorem fltB64Add_value (e1 e2 : FltMantissa) :
    (fltB64Add e1 e2).1.value = (e1.value + e2.value) % 2 ^ 64 := by
  have l1 := e1.l32.toNat_lt
  have l2 := e2.l32.toNat_lt
  unfold fltB64Add value
  simp only [decide_eq_true_eq, complement_lt_iff]
  split
  next carry =>
    split <;>
      simp only [toNat_add, UInt32.reduceToNat] <;> omega
  next noCarry =>
    simp only [toNat_add]
    omega

theorem fltB64Add_carry (e1 e2 : FltMantissa) :
    (fltB64Add e1 e2).2 = decide (2 ^ 64 ≤ e1.value + e2.value) := by
  have l1 := e1.l32.toNat_lt
  have l2 := e2.l32.toNat_lt
  unfold fltB64Add value
  simp only [decide_eq_true_eq, complement_lt_iff]
  split
  next carry =>
    split
    next wrapped =>
      have zero := congrArg UInt32.toNat wrapped
      simp only [toNat_add, UInt32.reduceToNat] at zero
      symm
      rw [decide_eq_true_eq]
      omega
    next kept =>
      have nonzero : (e1.h32 + e2.h32 + 1).toNat ≠ 0 := fun zero =>
        kept (toNat_inj.mp zero)
      simp only [toNat_add, UInt32.reduceToNat] at nonzero
      refine decide_eq_decide.mpr ?_
      omega
  next noCarry =>
    refine decide_eq_decide.mpr ?_
    omega

/-! ## Shifting -/

/-- `flt_b64_sft`: a positive count shifts to the right, a negative one to the
left. -/
def fltB64Sft (e : FltMantissa) (n : Int) : FltMantissa :=
  if n > 63 ∨ n < -63 then ⟨0, 0⟩
  else
    let (e, n) := if n ≥ 32 then (⟨0, e.h32⟩, n - 32) else (e, n)
    let e := if n > 0 then shiftRight e (UInt32.ofNat n.toNat) else e
    let n := -n
    let (e, n) := if n ≥ 32 then (⟨e.l32, 0⟩, n - 32) else (e, n)
    if n > 0 then shiftLeft e (UInt32.ofNat n.toNat) else e
where
  /-- The branch for `0 < n < 32` to the right. -/
  shiftRight (e : FltMantissa) (n : UInt32) : FltMantissa :=
    let l := e.l32 >>> n
    if e.h32 ≠ 0 then ⟨e.h32 >>> n, l ||| (e.h32 <<< (32 - n))⟩ else ⟨e.h32, l⟩
  /-- The branch for `0 < n < 32` to the left. -/
  shiftLeft (e : FltMantissa) (n : UInt32) : FltMantissa :=
    let h := e.h32 <<< n
    if e.l32 ≠ 0 then ⟨h ||| (e.l32 >>> (32 - n)), e.l32 <<< n⟩ else ⟨h, e.l32⟩

theorem or_eq_add_of_lt {low width high : Nat} (fits : low < 2 ^ width) :
    low ||| high * 2 ^ width = low + high * 2 ^ width := by
  rw [Nat.or_comm, Nat.mul_comm, ← Nat.two_pow_add_eq_or_of_lt fits]
  exact Nat.add_comm _ _

variable {n : Nat}

theorem two_pow_split (small : n ≤ 32) : 2 ^ 32 = 2 ^ (32 - n) * 2 ^ n := by
  rw [← pow_add]
  congr 1
  omega

theorem toNat_shiftRight_ofNat (a : UInt32) (small : n < 32) :
    (a >>> UInt32.ofNat n).toNat = a.toNat / 2 ^ n := by
  rw [UInt32.toNat_shiftRight, toNat_ofNat', Nat.mod_eq_of_lt (by omega : n < 2 ^ 32),
    Nat.mod_eq_of_lt small, Nat.shiftRight_eq_div_pow]

theorem toNat_shiftLeft_ofNat (a : UInt32) (small : n < 32) :
    (a <<< UInt32.ofNat n).toNat = a.toNat % 2 ^ (32 - n) * 2 ^ n := by
  rw [UInt32.toNat_shiftLeft, toNat_ofNat', Nat.mod_eq_of_lt (by omega : n < 2 ^ 32),
    Nat.mod_eq_of_lt small, Nat.shiftLeft_eq, two_pow_split small.le, Nat.mul_mod_mul_right]

theorem thirtyTwo_sub_ofNat (small : n ≤ 32) : 32 - UInt32.ofNat n = UInt32.ofNat (32 - n) := by
  have count : (UInt32.ofNat n).toNat = n := by
    rw [toNat_ofNat']
    omega
  refine toNat_inj.mp ?_
  rw [UInt32.toNat_sub_of_le _ _ (by rw [UInt32.le_iff_toNat_le, count]; exact small), count,
    toNat_ofNat', Nat.mod_eq_of_lt (by omega)]
  rfl

section

variable (e : FltMantissa)
include e

theorem shiftRight_value (positive : 0 < n) (small : n < 32) :
    (fltB64Sft.shiftRight e (UInt32.ofNat n)).value = e.value / 2 ^ n := by
  have whole := two_pow_split small.le
  have moved : (e.h32 <<< (32 - UInt32.ofNat n)).toNat = e.h32.toNat % 2 ^ n * 2 ^ (32 - n) := by
    rw [thirtyTwo_sub_ofNat small.le, toNat_shiftLeft_ofNat _ (by omega)]
    congr 3
    omega
  have lowFits : e.l32.toNat / 2 ^ n < 2 ^ (32 - n) := by
    rw [Nat.div_lt_iff_lt_mul (Nat.two_pow_pos n), ← whole]
    exact e.l32.toNat_lt
  have quotient : e.value / 2 ^ n = e.h32.toNat * 2 ^ (32 - n) + e.l32.toNat / 2 ^ n := by
    unfold value
    rw [whole, ← Nat.mul_assoc, Nat.mul_comm _ (2 ^ n), Nat.mul_add_div (Nat.two_pow_pos n)]
  rw [quotient]
  unfold fltB64Sft.shiftRight
  split
  next nonzero =>
    unfold value
    rw [toNat_or, toNat_shiftRight_ofNat _ small, toNat_shiftRight_ofNat _ small, moved,
      or_eq_add_of_lt lowFits]
    conv_rhs => rw [← Nat.div_add_mod e.h32.toNat (2 ^ n)]
    rw [whole]
    ring
  next zero =>
    have empty : e.h32 = 0 := by simpa using zero
    unfold value
    simp only [empty, toNat_shiftRight_ofNat _ small, UInt32.reduceToNat, Nat.zero_mul]

/-- A short shift to the left, with the carry between the words. -/
theorem shiftLeft_value (positive : 0 < n) (small : n < 32) :
    (fltB64Sft.shiftLeft e (UInt32.ofNat n)).value = e.value * 2 ^ n % 2 ^ 64 := by
  have whole := two_pow_split small.le
  have moved : (e.l32 >>> (32 - UInt32.ofNat n)).toNat = e.l32.toNat / 2 ^ (32 - n) := by
    rw [thirtyTwo_sub_ofNat small.le, toNat_shiftRight_ofNat _ (by omega)]
  have movedFits : e.l32.toNat / 2 ^ (32 - n) < 2 ^ n := by
    rw [Nat.div_lt_iff_lt_mul (Nat.two_pow_pos _), Nat.mul_comm, ← whole]
    exact e.l32.toNat_lt
  have product : e.value * 2 ^ n % 2 ^ 64 =
      (e.h32.toNat % 2 ^ (32 - n) * 2 ^ n + e.l32.toNat / 2 ^ (32 - n)) * 2 ^ 32 +
        e.l32.toNat % 2 ^ (32 - n) * 2 ^ n := by
    have highKept := Nat.mod_lt e.h32.toNat (Nat.two_pow_pos (32 - n))
    have lowKept := Nat.mod_lt e.l32.toNat (Nat.two_pow_pos (32 - n))
    have spread : e.value * 2 ^ n = e.h32.toNat / 2 ^ (32 - n) * 2 ^ 64 +
        ((e.h32.toNat % 2 ^ (32 - n) * 2 ^ n + e.l32.toNat / 2 ^ (32 - n)) * 2 ^ 32 +
          e.l32.toNat % 2 ^ (32 - n) * 2 ^ n) := by
      unfold value
      conv_lhs => rw [← Nat.div_add_mod e.h32.toNat (2 ^ (32 - n)),
        ← Nat.div_add_mod e.l32.toNat (2 ^ (32 - n))]
      rw [show 2 ^ 64 = 2 ^ 32 * 2 ^ 32 by norm_num, whole]
      ring
    have highBound : e.h32.toNat % 2 ^ (32 - n) * 2 ^ n + 2 ^ n ≤ 2 ^ 32 := by
      rw [whole, ← Nat.succ_mul]
      exact Nat.mul_le_mul_right _ highKept
    have lowBound : e.l32.toNat % 2 ^ (32 - n) * 2 ^ n < 2 ^ 32 := by
      rw [whole]
      exact Nat.mul_lt_mul_of_pos_right lowKept (Nat.two_pow_pos n)
    omega
  rw [product]
  unfold fltB64Sft.shiftLeft
  split
  next nonzero =>
    unfold value
    rw [toNat_or, toNat_shiftLeft_ofNat _ small, toNat_shiftLeft_ofNat _ small, moved,
      Nat.or_comm, or_eq_add_of_lt movedFits]
    ring
  next zero =>
    have empty : e.l32 = 0 := by simpa using zero
    unfold value
    simp [empty, toNat_shiftLeft_ofNat _ small]

/-- A shift to the right divides. -/
theorem fltB64Sft_right (small : n ≤ 63) :
    (fltB64Sft e n).value = e.value / 2 ^ n := by
  have low := e.l32.toNat_lt
  unfold fltB64Sft
  rw [if_neg (by omega)]
  by_cases word : 32 ≤ n
  · have wordValue : (⟨0, e.h32⟩ : FltMantissa).value = e.value / 2 ^ 32 := by
      unfold value
      simp only [UInt32.reduceToNat]
      omega
    have counts : ((n : Int) - 32).toNat = n - 32 := by omega
    have parts : e.value / 2 ^ n = e.value / 2 ^ 32 / 2 ^ (n - 32) := by
      rw [Nat.div_div_eq_div_mul, ← pow_add]
      congr 2
      omega
    simp only [if_pos (show (n : Int) ≥ 32 by omega), counts,
      if_neg (show ¬ -((n : Int) - 32) ≥ 32 by omega),
      if_neg (show ¬ -((n : Int) - 32) > 0 by omega)]
    split
    next positive => rw [shiftRight_value _ (by omega) (by omega), wordValue, parts]
    next exact =>
      have zero : n - 32 = 0 := by omega
      rw [wordValue, parts, zero, pow_zero, Nat.div_one]
  · simp only [if_neg (show ¬ (n : Int) ≥ 32 by omega), Int.toNat_natCast,
      if_neg (show ¬ -(n : Int) ≥ 32 by omega), if_neg (show ¬ -(n : Int) > 0 by omega)]
    split
    next positive => exact shiftRight_value e (by omega) (by omega)
    next none =>
      have zero : n = 0 := by omega
      rw [zero, pow_zero, Nat.div_one]

/-- A shift to the left multiplies and loses the bits on top. -/
theorem fltB64Sft_left (small : n ≤ 63) :
    (fltB64Sft e (-n)).value = e.value * 2 ^ n % 2 ^ 64 := by
  have low := e.l32.toNat_lt
  have bound := e.value_lt
  unfold fltB64Sft
  rw [if_neg (by omega)]
  simp only [if_neg (show ¬ -(n : Int) ≥ 32 by omega), if_neg (show ¬ -(n : Int) > 0 by omega),
    Int.neg_neg]
  by_cases word : 32 ≤ n
  · have wordValue : (⟨e.l32, 0⟩ : FltMantissa).value = e.value * 2 ^ 32 % 2 ^ 64 := by
      unfold value
      simp only [UInt32.reduceToNat]
      omega
    have counts : ((n : Int) - 32).toNat = n - 32 := by omega
    have parts : e.value * 2 ^ n % 2 ^ 64 = e.value * 2 ^ 32 % 2 ^ 64 * 2 ^ (n - 32) % 2 ^ 64 := by
      rw [Nat.mod_mul_mod, Nat.mul_assoc, ← pow_add]
      congr 3
      omega
    simp only [if_pos (show (n : Int) ≥ 32 by omega), counts]
    split
    next positive => rw [shiftLeft_value _ (by omega) (by omega), wordValue, parts]
    next exact =>
      have zero : n - 32 = 0 := by omega
      rw [wordValue, parts, zero, pow_zero, Nat.mul_one, Nat.mod_mod]
  · simp only [if_neg (show ¬ (n : Int) ≥ 32 by omega)]
    split
    next positive => exact shiftLeft_value e (by omega) (by omega)
    next none =>
      have zero : n = 0 := by omega
      rw [zero, pow_zero, Nat.mul_one, Nat.mod_eq_of_lt bound]

theorem fltB64Sft_far {n : Int} (far : n > 63 ∨ n < -63) :
    fltB64Sft e n = zero := by
  rw [fltB64Sft, if_pos far]
  rfl

end

/-- Any shift to the right divides, far shifts included. -/
theorem fltB64Sft_div (m : FltMantissa) (n : Nat) : (fltB64Sft m n).value = m.value / 2 ^ n := by
  by_cases small : n ≤ 63
  · exact fltB64Sft_right m small
  · rw [fltB64Sft_far m (Or.inl (by omega)), FltMantissa.value_zero, Nat.div_eq_of_lt]
    exact lt_of_lt_of_le m.value_lt (Nat.pow_le_pow_right (by decide) (by omega))

/-- Setting the highest bit of a mantissa that does not have it. -/
theorem set_top {m : FltMantissa} (clear : m.value < 2 ^ 63) :
    (⟨m.h32 ||| 0x80000000, m.l32⟩ : FltMantissa).value = m.value + 2 ^ 63 := by
  unfold FltMantissa.value at clear ⊢
  have top : (m.h32 ||| 0x80000000).toNat = m.h32.toNat + 2 ^ 31 := by
    have fits : m.h32.toNat < 2 ^ 31 := by omega
    have joined := @or_eq_add_of_lt _ _ 1 fits
    exact joined
  dsimp only
  omega

/-! ## Splitting -/

/-- `flt_split`: the four 16-bit digits of the mantissa, the most significant
first. -/
def fltSplit (e : FltMantissa) : Nat → Nat
  | 0 => e.h32.toNat / 2 ^ 16
  | 1 => e.h32.toNat % 2 ^ 16
  | 2 => e.l32.toNat / 2 ^ 16
  | 3 => e.l32.toNat % 2 ^ 16
  | _ => 0

theorem fltSplit_lt (e : FltMantissa) (index : Nat) : fltSplit e index < 2 ^ 16 := by
  have high := e.h32.toNat_lt
  have low := e.l32.toNat_lt
  unfold fltSplit
  split <;> omega

end AckFormal.Flt.Mantissa
