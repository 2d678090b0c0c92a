import AckFormal.Fp.Singles

/-!
# Comparing singles and doubles

`cmf4` and `cmf8` compare the words of two numbers as signed integers, after a
look at the signs.  `cmf8` decides in the low words when the high ones are
equal; it comes there with operands of opposite sign as well, whose high words
are zero but for the sign, and then treats both as if they had the sign of the
first.
-/

namespace AckFormal.Fp.Comparison

open Flt.Mantissa Flt.Number Extended Singles

def SIGN (x : Int32) : Int := if x < 0 then -1 else 1

def cmf4 (f1 f2 : SINGLE) : Int :=
  let l1 := f1.toInt32
  let l2 := f2.toInt32
  if l1 = l2 then 0
  else
    let sign1 := SIGN l1
    let sign2 := SIGN l2
    if sign1 ≠ sign2 then
      if l1 &&& 0x7fffffff = 0 ∧ l2 &&& 0x7fffffff = 0 then 0
      else if sign1 > 0 then -1 else 1
    else sign1 * (if l1 < l2 then 1 else -1)

/-- The end of `cmf8`, after the signs: the high words `l1` and `l2`, or else the
low ones, decide. -/
def cmf8Words (sign1 : Int) (l1 l2 : Int32) (u1 u2 : UInt32) : Int :=
  if l1 ≠ l2 then sign1 * (if l1 < l2 then 1 else -1)
  else if u1 = u2 then 0
  else sign1 * (if u1 < u2 then 1 else -1)

def cmf8 (msl : Bool) (d1 d2 : DOUBLE) : Int :=
  let l1 := (d1.high msl).toInt32
  let l2 := (d2.high msl).toInt32
  let sign1 := SIGN l1
  let sign2 := SIGN l2
  if sign1 ≠ sign2 then
    let l1 := l1 &&& 0x7fffffff
    let l2 := l2 &&& 0x7fffffff
    if l1 ≠ 0 ∨ l2 ≠ 0 then if sign1 > 0 then -1 else 1
    else cmf8Words sign1 l1 l2 (d1.low msl) (d2.low msl)
  else cmf8Words sign1 l1 l2 (d1.low msl) (d2.low msl)

/-! ## Orders -/

structure Orders (result : Int) (a b : ℚ) : Prop where
  less : result = 1 ↔ a < b
  equal : result = 0 ↔ a = b
  greater : result = -1 ↔ b < a

namespace Orders

variable {result : Int} {a b : ℚ}

theorem ofLess (less : a < b) : Orders 1 a b :=
  ⟨by simp [less], by simp [less.ne], by simp [less.le]⟩

theorem ofEqual (equal : a = b) : Orders 0 a b :=
  ⟨by simp [equal], by simp [equal], by simp [equal]⟩

theorem ofGreater (greater : b < a) : Orders (-1) a b :=
  ⟨by simp [greater.le], by simp [greater.ne'], by simp [greater]⟩

theorem iff_eq {expected : Int} (orders : Orders expected a b) :
    Orders result a b ↔ result = expected := by
  constructor
  · intro other
    rcases lt_trichotomy a b with less | equal | greater
    · rw [other.less.mpr less, orders.less.mpr less]
    · rw [other.equal.mpr equal, orders.equal.mpr equal]
    · rw [other.greater.mpr greater, orders.greater.mpr greater]
  · rintro rfl
    exact orders

theorem neg_iff : Orders (-result) (-a) (-b) ↔ Orders result a b := by
  constructor
  · intro orders
    refine ⟨?_, ?_, ?_⟩
    · rw [← neg_lt_neg_iff, ← orders.greater, neg_inj]
    · rw [← neg_eq_zero, orders.equal, neg_inj]
    · rw [← neg_lt_neg_iff, ← orders.less, neg_eq_iff_eq_neg]
  · intro orders
    refine ⟨?_, ?_, ?_⟩
    · rw [neg_lt_neg_iff, ← orders.greater, neg_eq_iff_eq_neg]
    · rw [neg_inj, ← orders.equal, neg_eq_zero]
    · rw [neg_lt_neg_iff, ← orders.less, neg_inj]

end Orders

def order (x y : Nat) : Int := if x < y then 1 else if x = y then 0 else -1

variable {a b : ℚ} {msl : Bool} {d1 d2 : DOUBLE}

theorem orders_order {x y : Nat} (less : x < y ↔ a < b) (equal : x = y ↔ a = b) :
    Orders (order x y) a b := by
  unfold order
  split
  next below => exact Orders.ofLess (less.mp below)
  next notBelow =>
    split
    next same => exact Orders.ofEqual (equal.mp same)
    next differs =>
      refine Orders.ofGreater (lt_of_le_of_ne (not_lt.mp (mt less.mpr notBelow)) ?_)
      exact fun same => differs (equal.mpr same.symm)

theorem orders_opposite (nonneg : 0 ≤ a) (nonneg' : 0 ≤ b) (some : a ≠ 0 ∨ b ≠ 0) :
    Orders (-1) a (-b) ∧ Orders 1 (-a) b := by
  have positive : 0 < a + b := by
    rcases some with left | right
    · exact add_pos_of_pos_of_nonneg (lt_of_le_of_ne nonneg left.symm) nonneg'
    · exact add_pos_of_nonneg_of_pos nonneg (lt_of_le_of_ne nonneg' right.symm)
  exact ⟨Orders.ofGreater (by linarith), Orders.ofLess (by linarith)⟩

/-! ## Words as signed integers -/

theorem toInt32_lt (a b : UInt32) : a.toInt32 < b.toInt32 ↔ a.toBitVec.toInt < b.toBitVec.toInt := by
  rw [Int32.lt_iff_toInt_lt]
  rfl

theorem toInt_word (a : UInt32) :
    a.toBitVec.toInt = if a.toNat < 2 ^ 31 then (a.toNat : Int) else a.toNat - 2 ^ 32 := by
  change (if 2 * a.toNat < _ then (a.toNat : Int) else _) = _
  split <;> split <;> first | rfl | omega

theorem toInt32_inj {a b : UInt32} : a.toInt32 = b.toInt32 ↔ a = b := by
  constructor
  · intro same
    exact congrArg Int32.toUInt32 same
  · exact congrArg UInt32.toInt32

theorem SIGN_eq (a : UInt32) : SIGN a.toInt32 = if a.toNat < 2 ^ 31 then 1 else -1 := by
  have bound := a.toNat_lt
  have negative : a.toInt32 < 0 ↔ ¬ a.toNat < 2 ^ 31 := by
    refine (toInt32_lt a 0).trans ?_
    rw [toInt_word, toInt_word]
    split <;> simp <;> omega
  unfold SIGN
  by_cases small : a.toNat < 2 ^ 31
  · rw [if_neg (not_not.mpr small ∘ negative.mp), if_pos small]
  · rw [if_pos (negative.mpr small), if_neg small]

theorem masked_eq_zero (a : UInt32) : a.toInt32 &&& 0x7fffffff = 0 ↔ a.toNat % 2 ^ 31 = 0 := by
  have mask : (0x7fffffff : Int32) = (0x7fffffff : UInt32).toInt32 := rfl
  have zero : (0 : Int32) = (0 : UInt32).toInt32 := rfl
  have bits : (0x7fffffff : UInt32).toNat = 2 ^ 31 - 1 := rfl
  rw [mask, zero, ← UInt32.toInt32_and, toInt32_inj, ← UInt32.toNat_inj, UInt32.toNat_and, bits,
    Nat.and_two_pow_sub_one_eq_mod, UInt32.toNat_zero]

section

variable {a b : UInt32} (same : a.toNat < 2 ^ 31 ↔ b.toNat < 2 ^ 31)
include same

theorem toInt32_lt_of_sign :
    a.toInt32 < b.toInt32 ↔ a.toNat % 2 ^ 31 < b.toNat % 2 ^ 31 := by
  have bound := a.toNat_lt
  have bound' := b.toNat_lt
  rw [toInt32_lt, toInt_word, toInt_word]
  split <;> split <;> omega

theorem low_bits_inj :
    a = b ↔ a.toNat % 2 ^ 31 = b.toNat % 2 ^ 31 := by
  have bound := a.toNat_lt
  have bound' := b.toNat_lt
  rw [← UInt32.toNat_inj]
  omega

end

def words (msl : Bool) (d : DOUBLE) : Nat :=
  (d.high msl).toNat % 2 ^ 31 * 2 ^ 32 + (d.low msl).toNat

theorem order_pairs {h h' u u' : Nat} (low : u < 2 ^ 32) (low' : u' < 2 ^ 32) :
    order (h * 2 ^ 32 + u) (h' * 2 ^ 32 + u') =
      if h ≠ h' then (if h < h' then 1 else -1)
      else if u = u' then 0 else if u < u' then 1 else -1 := by
  unfold order
  rcases lt_trichotomy h h' with less | same | greater
  · rw [if_pos (by omega), if_pos less.ne, if_pos less]
  · subst same
    rw [if_neg (not_not.mpr rfl)]
    rcases lt_trichotomy u u' with below | same | above
    · rw [if_pos (by omega), if_neg below.ne, if_pos below]
    · rw [if_neg (by omega), if_pos (by omega), if_pos same]
    · rw [if_neg (by omega), if_neg (by omega), if_neg above.ne', if_neg (by omega)]
  · rw [if_neg (by omega), if_neg (by omega), if_pos greater.ne', if_neg (by omega)]

theorem cmf8Words_order (sign1 : Int) (same : d1.negative msl ↔ d2.negative msl) :
    cmf8Words sign1 (d1.high msl).toInt32 (d2.high msl).toInt32 (d1.low msl) (d2.low msl) =
      sign1 * order (words msl d1) (words msl d2) := by
  have signs : (d1.high msl).toNat < 2 ^ 31 ↔ (d2.high msl).toNat < 2 ^ 31 := by
    unfold DOUBLE.negative at same
    omega
  unfold cmf8Words words
  rw [order_pairs (d1.low msl).toNat_lt (d2.low msl).toNat_lt]
  simp only [ne_eq, toInt32_inj, low_bits_inj signs, toInt32_lt_of_sign signs,
    UInt32.lt_iff_toNat_lt, ← UInt32.toNat_inj, mul_ite, mul_zero]

/-! ## Doubles -/

theorem DOUBLE.fields (msl : Bool) (d : DOUBLE) :
    d.exponent msl * 2 ^ 52 + d.fraction msl = words msl d := by
  unfold DOUBLE.exponent DOUBLE.fraction words
  omega

theorem DOUBLE.magnitude_eq (msl : Bool) (d : DOUBLE) :
    d.magnitude msl = scaled 52 (d.exponent msl) (d.fraction msl) * (2 : ℚ) ^ (-1074 : Int) := by
  rw [← scaled_magnitude, DOUBLE.magnitude]
  congr 3
  omega

theorem DOUBLE.orders_magnitude (msl : Bool) (d1 d2 : DOUBLE) :
    Orders (order (words msl d1) (words msl d2)) (d1.magnitude msl) (d2.magnitude msl) := by
  have unit : (0 : ℚ) < 2 ^ (-1074 : Int) := by positivity
  have bound1 := d1.fraction_lt msl
  have bound2 := d2.fraction_lt msl
  rw [← DOUBLE.fields, ← DOUBLE.fields, DOUBLE.magnitude_eq, DOUBLE.magnitude_eq]
  refine orders_order ?_ ?_
  · rw [mul_lt_mul_iff_left₀ unit, Nat.cast_lt, scaled_lt_iff bound1 bound2]
  · rw [mul_left_inj' unit.ne', Nat.cast_inj, scaled_eq_iff bound1 bound2]

theorem DOUBLE.magnitude_nonneg (msl : Bool) (d : DOUBLE) : 0 ≤ d.magnitude msl := by
  rw [DOUBLE.magnitude_eq]
  positivity

theorem DOUBLE.magnitude_eq_zero (msl : Bool) (d : DOUBLE) :
    d.magnitude msl = 0 ↔ words msl d = 0 := by
  have bound := d.fraction_lt msl
  have none : (0 : Nat) < 2 ^ 52 := by decide
  have zero : scaled 52 0 0 = 0 := by decide
  have unit : (2 : ℚ) ^ (-1074 : Int) ≠ 0 := by positivity
  rw [DOUBLE.magnitude_eq, mul_eq_zero_iff_right unit, Nat.cast_eq_zero, ← DOUBLE.fields, ← zero,
    scaled_eq_iff bound none]
  omega

theorem SIGN_high (msl : Bool) (d : DOUBLE) :
    SIGN (d.high msl).toInt32 = if d.negative msl then -1 else 1 := by
  have small : (d.high msl).toNat < 2 ^ 31 ↔ ¬ d.negative msl := not_le.symm
  rw [SIGN_eq]
  by_cases negative : d.negative msl
  · rw [if_neg (not_not.mpr negative ∘ small.mp), if_pos negative]
  · rw [if_pos (small.mpr negative), if_neg negative]

theorem cmf8_same_sign (same : d1.negative msl ↔ d2.negative msl) :
    Orders (cmf8 msl d1 d2) (d1.value msl) (d2.value msl) := by
  have magnitudes := DOUBLE.orders_magnitude msl d1 d2
  unfold cmf8 DOUBLE.value
  dsimp only
  rw [SIGN_high, SIGN_high, cmf8Words_order _ same]
  by_cases negative : d1.negative msl
  · rw [if_pos negative, if_pos (same.mp negative), if_pos negative, if_pos (same.mp negative),
      if_neg (not_not.mpr rfl), Int.neg_one_mul]
    exact Orders.neg_iff.mpr magnitudes
  · rw [if_neg negative, if_neg (mt same.mpr negative), if_neg negative,
      if_neg (mt same.mpr negative), if_neg (not_not.mpr rfl), Int.one_mul]
    exact magnitudes

/-- Opposite signs, no bit in the high words but the sign, and a second magnitude
that is not zero nor less than the first. -/
structure OppositeTinies (msl : Bool) (d1 d2 : DOUBLE) : Prop where
  opposite : d1.negative msl ↔ ¬ d2.negative msl
  high1 : (d1.high msl).toNat % 2 ^ 31 = 0
  high2 : (d2.high msl).toNat % 2 ^ 31 = 0
  lows : d1.low msl ≤ d2.low msl
  nonzero : d2.low msl ≠ 0

/-- What `cmf8` makes of two magnitudes of opposite sign, when only the low words
are left to compare. -/
theorem order_opposite {x y : Nat} (zero : a = 0 ↔ x = 0) (zero' : b = 0 ↔ y = 0) (nonneg : 0 ≤ a)
    (nonneg' : 0 ≤ b) : Orders (order x y) a (-b) ↔ ¬ (x ≤ y ∧ y ≠ 0) := by
  by_cases none : x = 0 ∧ y = 0
  · have equal : a = -b := by rw [zero.mpr none.1, zero'.mpr none.2, neg_zero]
    rw [(Orders.ofEqual equal).iff_eq, none.1, none.2]
    exact iff_of_true rfl (fun both => both.2 rfl)
  · have some : a ≠ 0 ∨ b ≠ 0 := by
      rw [Ne, Ne, zero, zero']
      omega
    rw [(orders_opposite nonneg nonneg' some).1.iff_eq]
    unfold order
    split
    next less => exact iff_of_false (by decide) (not_not.mpr ⟨less.le, by omega⟩)
    next =>
      split
      next same => exact iff_of_false (by decide) (not_not.mpr ⟨same.le, by omega⟩)
      next => exact iff_of_true rfl (by omega)

/-- Numbers of opposite signs are ordered unless both are tiny. -/
theorem cmf8_opposite_sign (opposite : d1.negative msl ↔ ¬ d2.negative msl) :
    Orders (cmf8 msl d1 d2) (d1.value msl) (d2.value msl) ↔ ¬ OppositeTinies msl d1 d2 := by
  have nonneg1 := DOUBLE.magnitude_nonneg msl d1
  have nonneg2 := DOUBLE.magnitude_nonneg msl d2
  have zero1 := DOUBLE.magnitude_eq_zero msl d1
  have zero2 := DOUBLE.magnitude_eq_zero msl d2
  have differ : SIGN (d1.high msl).toInt32 ≠ SIGN (d2.high msl).toInt32 := by
    rw [SIGN_high, SIGN_high]
    split <;> split <;> simp_all
  have highWords : ((d1.high msl).toInt32 &&& 0x7fffffff ≠ 0 ∨
      (d2.high msl).toInt32 &&& 0x7fffffff ≠ 0) ↔
        ¬ ((d1.high msl).toNat % 2 ^ 31 = 0 ∧ (d2.high msl).toNat % 2 ^ 31 = 0) := by
    rw [not_and_or, ← masked_eq_zero, ← masked_eq_zero]
  unfold cmf8
  rw [if_pos differ]
  by_cases high : (d1.high msl).toNat % 2 ^ 31 = 0 ∧ (d2.high msl).toNat % 2 ^ 31 = 0
  · -- the low words decide, with the sign of the first
    have words1 : words msl d1 = (d1.low msl).toNat := by rw [words, high.1, Nat.zero_mul, Nat.zero_add]
    have words2 : words msl d2 = (d2.low msl).toNat := by rw [words, high.2, Nat.zero_mul, Nat.zero_add]
    rw [words1] at zero1
    rw [words2] at zero2
    have both := order_opposite zero1 zero2 nonneg1 nonneg2
    have tinies : OppositeTinies msl d1 d2 ↔
        (d1.low msl).toNat ≤ (d2.low msl).toNat ∧ (d2.low msl).toNat ≠ 0 := by
      rw [ne_eq, ← UInt32.toNat_zero, UInt32.toNat_inj, ← UInt32.le_iff_toNat_le]
      exact ⟨fun tinies => ⟨tinies.lows, tinies.nonzero⟩,
        fun lows => ⟨opposite, high.1, high.2, lows.1, lows.2⟩⟩
    have masked : (d1.high msl).toInt32 &&& 0x7fffffff = (d2.high msl).toInt32 &&& 0x7fffffff :=
      ((masked_eq_zero _).mpr high.1).trans ((masked_eq_zero _).mpr high.2).symm
    have compared : cmf8Words (SIGN (d1.high msl).toInt32) ((d1.high msl).toInt32 &&& 0x7fffffff)
        ((d2.high msl).toInt32 &&& 0x7fffffff) (d1.low msl) (d2.low msl) =
          SIGN (d1.high msl).toInt32 * order (d1.low msl).toNat (d2.low msl).toNat := by
      have pair := @order_pairs 0 0 _ _ (d1.low msl).toNat_lt (d2.low msl).toNat_lt
      rw [if_neg (not_not.mpr rfl), Nat.zero_mul, Nat.zero_add, Nat.zero_add] at pair
      unfold cmf8Words
      rw [pair, if_neg (not_not.mpr masked)]
      simp only [UInt32.lt_iff_toNat_lt, ← UInt32.toNat_inj, mul_ite, mul_zero]
    rw [if_neg (not_not.mpr high ∘ highWords.mp), compared, SIGN_high, tinies, ← both]
    unfold DOUBLE.value
    by_cases negative : d1.negative msl
    · rw [if_pos negative, if_pos negative, if_neg (opposite.mp negative), Int.neg_one_mul,
        ← neg_neg (d2.magnitude msl), Orders.neg_iff, neg_neg]
    · rw [if_neg negative, if_neg negative, if_pos (not_not.mp (mt opposite.mpr negative)),
        Int.one_mul]
  · have some : d1.magnitude msl ≠ 0 ∨ d2.magnitude msl ≠ 0 := by
      rw [ne_eq, ne_eq, zero1, zero2]
      unfold words
      omega
    have ordered := orders_opposite nonneg1 nonneg2 some
    refine iff_of_true ?_ (fun tinies => high ⟨tinies.high1, tinies.high2⟩)
    rw [if_pos (highWords.mpr high), SIGN_high]
    unfold DOUBLE.value
    by_cases negative : d1.negative msl
    · rw [if_pos negative, if_pos negative, if_neg (opposite.mp negative)]
      exact ordered.2
    · rw [if_neg negative, if_neg negative, if_pos (not_not.mp (mt opposite.mpr negative))]
      exact ordered.1

/-! ## Singles -/

theorem SINGLE.orders_magnitude (f1 f2 : SINGLE) :
    Orders (order (f1.toNat % 2 ^ 31) (f2.toNat % 2 ^ 31)) (SINGLE.magnitude f1)
      (SINGLE.magnitude f2) := by
  have unit : (0 : ℚ) < 2 ^ (-149 : Int) := by positivity
  have bound1 := SINGLE.fraction_lt f1
  have bound2 := SINGLE.fraction_lt f2
  rw [← SINGLE.fields, ← SINGLE.fields, SINGLE.magnitude_eq, SINGLE.magnitude_eq]
  refine orders_order ?_ ?_
  · rw [mul_lt_mul_iff_left₀ unit, Nat.cast_lt, scaled_lt_iff bound1 bound2]
  · rw [mul_left_inj' unit.ne', Nat.cast_inj, scaled_eq_iff bound1 bound2]

theorem SINGLE.magnitude_nonneg (f : SINGLE) : 0 ≤ SINGLE.magnitude f := by
  rw [SINGLE.magnitude_eq]
  positivity

theorem SINGLE.magnitude_eq_zero (f : SINGLE) :
    SINGLE.magnitude f = 0 ↔ f.toNat % 2 ^ 31 = 0 := by
  have bound := SINGLE.fraction_lt f
  have none : (0 : Nat) < 2 ^ 23 := by decide
  have zero : scaled 23 0 0 = 0 := by decide
  have unit : (2 : ℚ) ^ (-149 : Int) ≠ 0 := by positivity
  rw [SINGLE.magnitude_eq, mul_eq_zero_iff_right unit, Nat.cast_eq_zero, ← SINGLE.fields, ← zero,
    scaled_eq_iff bound none]
  omega

theorem SIGN_single (f : SINGLE) : SIGN f.toInt32 = if SINGLE.negative f then -1 else 1 := by
  have small : f.toNat < 2 ^ 31 ↔ ¬ SINGLE.negative f := not_le.symm
  rw [SIGN_eq]
  by_cases negative : SINGLE.negative f
  · rw [if_neg (not_not.mpr negative ∘ small.mp), if_pos negative]
  · rw [if_pos (small.mpr negative), if_neg negative]

theorem cmf4_same_sign {f1 f2 : SINGLE} (same : SINGLE.negative f1 ↔ SINGLE.negative f2) :
    Orders (cmf4 f1 f2) (SINGLE.value f1) (SINGLE.value f2) := by
  have magnitudes := SINGLE.orders_magnitude f1 f2
  have signs : f1.toNat < 2 ^ 31 ↔ f2.toNat < 2 ^ 31 := by
    unfold SINGLE.negative at same
    omega
  have equalSigns : ¬ SIGN f1.toInt32 ≠ SIGN f2.toInt32 := by
    rw [SIGN_single, SIGN_single]
    split <;> split <;> simp_all
  have compared : cmf4 f1 f2 = SIGN f1.toInt32 * order (f1.toNat % 2 ^ 31) (f2.toNat % 2 ^ 31) := by
    unfold cmf4 order
    dsimp only
    rw [if_neg equalSigns]
    simp only [toInt32_inj, low_bits_inj signs, toInt32_lt_of_sign signs]
    rcases lt_trichotomy (f1.toNat % 2 ^ 31) (f2.toNat % 2 ^ 31) with less | equal | greater
    · rw [if_neg less.ne, if_pos less, if_pos less]
    · rw [if_pos equal, if_neg equal.not_lt, if_pos equal, mul_zero]
    · rw [if_neg greater.ne', if_neg greater.not_gt, if_neg greater.not_gt, if_neg greater.ne']
  rw [compared, SIGN_single]
  unfold SINGLE.value
  by_cases negative : SINGLE.negative f1
  · rw [if_pos negative, if_pos negative, if_pos (same.mp negative), Int.neg_one_mul]
    exact Orders.neg_iff.mpr magnitudes
  · rw [if_neg negative, if_neg negative, if_neg (mt same.mpr negative), Int.one_mul]
    exact magnitudes

theorem cmf4_opposite_sign {f1 f2 : SINGLE} (opposite : SINGLE.negative f1 ↔ ¬ SINGLE.negative f2) :
    Orders (cmf4 f1 f2) (SINGLE.value f1) (SINGLE.value f2) := by
  have nonneg1 := SINGLE.magnitude_nonneg f1
  have nonneg2 := SINGLE.magnitude_nonneg f2
  have zero1 := SINGLE.magnitude_eq_zero f1
  have zero2 := SINGLE.magnitude_eq_zero f2
  have differ : SIGN f1.toInt32 ≠ SIGN f2.toInt32 := by
    rw [SIGN_single, SIGN_single]
    split <;> split <;> simp_all
  have words : ¬ f1.toInt32 = f2.toInt32 := fun same => differ (congrArg SIGN same)
  have zeros : (f1.toInt32 &&& 0x7fffffff = 0 ∧ f2.toInt32 &&& 0x7fffffff = 0) ↔
      (SINGLE.magnitude f1 = 0 ∧ SINGLE.magnitude f2 = 0) := by
    rw [masked_eq_zero, masked_eq_zero, zero1, zero2]
  unfold cmf4
  rw [if_neg words, if_pos differ]
  unfold SINGLE.value
  by_cases none : SINGLE.magnitude f1 = 0 ∧ SINGLE.magnitude f2 = 0
  · rw [if_pos (zeros.mpr none), none.1, none.2]
    refine Orders.ofEqual ?_
    simp
  · have ordered := orders_opposite nonneg1 nonneg2 (not_and_or.mp none)
    rw [if_neg (mt zeros.mp none), SIGN_single]
    by_cases negative : SINGLE.negative f1
    · rw [if_pos negative, if_pos negative, if_neg (opposite.mp negative)]
      exact ordered.2
    · rw [if_neg negative, if_neg negative, if_pos (not_not.mp (mt opposite.mpr negative))]
      exact ordered.1

/-! ## The comparisons -/

theorem cmf4_orders (f1 f2 : SINGLE) :
    Orders (cmf4 f1 f2) (SINGLE.value f1) (SINGLE.value f2) := by
  by_cases same : SINGLE.negative f1 ↔ SINGLE.negative f2
  · exact cmf4_same_sign same
  · exact cmf4_opposite_sign (by rw [not_iff] at same; rw [← same, not_not])

/-- `cmf4` tells the order of all singles, `cmf8` that of all doubles but two
tiny ones of opposite sign of which the first is not the greater in magnitude. -/
theorem cmf_orders_iff (msl : Bool) (f1 f2 : SINGLE) (d1 d2 : DOUBLE) :
    Orders (cmf4 f1 f2) (SINGLE.value f1) (SINGLE.value f2) ∧
      (Orders (cmf8 msl d1 d2) (d1.value msl) (d2.value msl) ↔ ¬ OppositeTinies msl d1 d2) := by
  refine ⟨cmf4_orders f1 f2, ?_⟩
  by_cases same : d1.negative msl ↔ d2.negative msl
  · refine iff_of_true (cmf8_same_sign same) fun tinies => ?_
    have opposite := tinies.opposite
    rw [same] at opposite
    exact iff_not_self opposite
  · exact cmf8_opposite_sign (by rw [not_iff] at same; rw [← same, not_not])

def leastPositive : DOUBLE := ⟨0, 1⟩

def greatestNegative : DOUBLE := ⟨0x80000000, 1⟩

/-- They compare equal. -/
theorem leastPositive_equals_greatestNegative :
    ¬ ∀ (msl : Bool) (d1 d2 : DOUBLE), d1.Finite msl → d2.Finite msl →
      Orders (cmf8 msl d1 d2) (d1.value msl) (d2.value msl) := by
  intro claim
  have orders := claim true leastPositive greatestNegative (by decide) (by decide)
  have zero : cmf8 true leastPositive greatestNegative = 0 := by decide
  have equal := orders.equal.mp zero
  have positive : leastPositive.value true = (2 : ℚ) ^ (-1074 : Int) := by
    unfold DOUBLE.value DOUBLE.magnitude
    rw [if_neg (by decide), if_pos (by decide), show leastPositive.fraction true = 1 by decide,
      Nat.cast_one, one_mul]
  have negative : greatestNegative.value true = -(2 : ℚ) ^ (-1074 : Int) := by
    unfold DOUBLE.value DOUBLE.magnitude
    rw [if_pos (by decide), if_pos (by decide), show greatestNegative.fraction true = 1 by decide,
      Nat.cast_one, one_mul]
  have unit : (0 : ℚ) < 2 ^ (-1074 : Int) := by positivity
  rw [positive, negative] at equal
  linarith

end AckFormal.Fp.Comparison
