import AckFormal.Flt.Number
import Mathlib.Algebra.Order.Field.Power
import Mathlib.Tactic.Linarith
import Mathlib.Tactic.FieldSimp

/-!
# Doubles and extended numbers

The software floating point package works on `EXTEND`, a sign, an exponent in a
`short` and a 64-bit mantissa.  `extend` unpacks a `DOUBLE` of two longs into
it.  An `unsigned long` has 32 bits; `FL_MSL_AT_LOW_ADDRESS`, which tells the
order of the two longs, stays a parameter.  A `B64` is the same pair of words as
a `flt_mantissa`, and `b64_add` has the text of `flt_b64_add`.
-/

namespace AckFormal.Fp.Extended

open Flt.Mantissa Flt.Number

/-! ## Shifting 64 bits -/

abbrev B64 := FltMantissa

/-- `b64_sft`: to the right by a positive count, to the left by a negative one. -/
def b64Sft (e1 : B64) (n : Int) : B64 :=
  if n > 0 then
    if n > 63 then ⟨0, 0⟩
    else
      let (e1, n) := if n ≥ 32 then (⟨0, e1.h32⟩, n - 32) else (e1, n)
      if n > 0 then fltB64Sft.shiftRight e1 (UInt32.ofNat n.toNat) else e1
  else
    let n := -n
    if n > 0 then
      if n > 63 then ⟨0, 0⟩
      else
        let (e1, n) := if n ≥ 32 then (⟨e1.l32, 0⟩, n - 32) else (e1, n)
        if n > 0 then fltB64Sft.shiftLeft e1 (UInt32.ofNat n.toNat) else e1
    else e1

def b64Lsft (e1 : B64) : B64 :=
  let h := e1.h32 <<< 1
  ⟨if e1.l32 &&& 0x80000000 ≠ 0 then h ||| 1 else h, e1.l32 <<< 1⟩

def b64Rsft (e1 : B64) : B64 :=
  let l := e1.l32 >>> 1
  ⟨e1.h32 >>> 1, if e1.h32 &&& 1 ≠ 0 then l ||| 0x80000000 else l⟩

theorem b64Sft_eq (e1 : B64) (n : Int) : b64Sft e1 n = fltB64Sft e1 n := by
  unfold b64Sft fltB64Sft
  dsimp only
  rcases lt_trichotomy n 0 with left | none | right
  · rw [if_neg (show ¬ n > 0 by omega), if_pos (show -n > 0 by omega)]
    by_cases far : -n > 63
    · rw [if_pos far, if_pos (show n > 63 ∨ n < -63 by omega)]
    · rw [if_neg far, if_neg (show ¬ (n > 63 ∨ n < -63) by omega), if_neg (show ¬ n ≥ 32 by omega)]
      rw [if_neg (show ¬ n > 0 by omega)]
  · subst none
    simp
  · rw [if_pos right]
    by_cases far : n > 63
    · rw [if_pos far, if_pos (Or.inl far)]
    · rw [if_neg far, if_neg (show ¬ (n > 63 ∨ n < -63) by omega)]
      by_cases word : n ≥ 32
      · simp only [if_pos word, if_neg (show ¬ -(n - 32) ≥ 32 by omega),
          if_neg (show ¬ -(n - 32) > 0 by omega)]
      · simp only [if_neg word, if_neg (show ¬ -n ≥ 32 by omega), if_neg (show ¬ -n > 0 by omega)]

theorem b64Sft_right (e1 : B64) (n : Nat) : (b64Sft e1 n).value = e1.value / 2 ^ n := by
  rw [b64Sft_eq]
  exact fltB64Sft_div e1 n

theorem bit_zero (w : UInt32) : w &&& 1 = 0 ↔ w.toNat % 2 = 0 := by
  rw [UInt32.and_comm, mask_and_eq_zero (k := 0) rfl]
  simp

theorem b64Rsft_value (e1 : B64) : (b64Rsft e1).value = e1.value / 2 := by
  have low := e1.l32.toNat_lt
  have halfLow : (e1.l32 >>> 1).toNat = e1.l32.toNat / 2 :=
    toNat_shiftRight_ofNat e1.l32 (n := 1) (by decide)
  have halfHigh : (e1.h32 >>> 1).toNat = e1.h32.toNat / 2 :=
    toNat_shiftRight_ofNat e1.h32 (n := 1) (by decide)
  have top : (0x80000000 : UInt32).toNat = 1 * 2 ^ 31 := rfl
  unfold b64Rsft FltMantissa.value
  dsimp only
  split
  next odd =>
    rw [Ne, bit_zero] at odd
    rw [UInt32.toNat_or, halfLow, top, or_eq_add_of_lt (by omega)]
    omega
  next even =>
    rw [not_not, bit_zero] at even
    omega

theorem b64Lsft_value (e1 : B64) : (b64Lsft e1).value = e1.value * 2 % 2 ^ 64 := by
  have low := e1.l32.toNat_lt
  have twiceLow : (e1.l32 <<< 1).toNat = e1.l32.toNat % 2 ^ 31 * 2 :=
    toNat_shiftLeft_ofNat e1.l32 (n := 1) (by decide)
  have twiceHigh : (e1.h32 <<< 1).toNat = e1.h32.toNat % 2 ^ 31 * 2 :=
    toNat_shiftLeft_ofNat e1.h32 (n := 1) (by decide)
  unfold b64Lsft FltMantissa.value
  dsimp only
  split
  next carry =>
    rw [Ne, top_and_eq_zero] at carry
    have sum : (e1.h32 <<< 1 ||| 1).toNat = 1 + e1.h32.toNat % 2 ^ 31 * 2 ^ 1 := by
      rw [UInt32.toNat_or, twiceHigh, Nat.or_comm]
      exact or_eq_add_of_lt (show 1 < 2 ^ 1 by decide)
    omega
  next clear =>
    rw [not_not, top_and_eq_zero] at clear
    omega

def b64Add (e1 e2 : B64) : B64 × Bool :=
  fltB64Add e1 e2

/-! ## Extended numbers -/

/-- `EXTEND`; the sign is the bit pattern of a `short`, of which only being
zero or not matters. -/
@[ext] structure EXTEND where
  sign : UInt16
  exp : Int
  mantissa : B64
  deriving DecidableEq

namespace EXTEND

abbrev m1 (e : EXTEND) : UInt32 := e.mantissa.h32

abbrev m2 (e : EXTEND) : UInt32 := e.mantissa.l32

def unit (e : EXTEND) : ℚ := (2 : ℚ) ^ (e.exp - 63)

def signed (sign : UInt16) (magnitude : ℚ) : ℚ :=
  if sign = 0 then magnitude else -magnitude

def value (e : EXTEND) : ℚ := signed e.sign (e.mantissa.value * e.unit)

theorem unit_pos (e : EXTEND) : 0 < e.unit := by
  unfold unit
  positivity

end EXTEND

def NORMBIT : UInt32 := 0x80000000

/-- `nrm_ext`; the loop over the mask `l` is `nrmScan`. -/
def nrmExt (e1 : EXTEND) : EXTEND :=
  if e1.m1 ||| e1.m2 = 0 then e1
  else
    let e1 := if e1.m1 = 0 then
        { e1 with mantissa := ⟨e1.m2, 0⟩, exp := toShort (e1.exp - 32) }
      else e1
    if e1.m1 &&& NORMBIT = 0 then
      let cnt := nrmScan e1.m1 31 (NORMBIT >>> 1) (-1)
      { e1 with exp := toShort (e1.exp + cnt), mantissa := b64Sft e1.mantissa cnt }
    else e1

variable {e : EXTEND} {msl : Bool} {x : DOUBLE}

theorem nrmExt_zero (empty : e.mantissa = FltMantissa.zero) : nrmExt e = e := by
  rw [nrmExt, if_pos (FltMantissa.or_eq_zero.mpr empty)]

theorem nrmExt_eq (nonzero : e.mantissa ≠ FltMantissa.zero) :
    (nrmExt e).sign = e.sign ∧
      (nrmExt e).exp = (fltNrm ⟨false, e.exp, e.mantissa⟩).exp ∧
      (nrmExt e).mantissa = (fltNrm ⟨false, e.exp, e.mantissa⟩).mantissa := by
  have some := mt FltMantissa.or_eq_zero.mp nonzero
  have mask : NORMBIT >>> 1 = 0x40000000 := by decide
  unfold nrmExt fltNrm nrmBits
  rw [if_neg some, if_neg some, mask]
  simp only [b64Sft_eq]
  unfold NORMBIT
  split <;> split <;> simp_all

/-- Normalising scales the mantissa up to its highest bit, and the number stays. -/
theorem nrmExt_spec (nonzero : e.mantissa ≠ FltMantissa.zero) (low : -30000 ≤ e.exp)
    (high : e.exp ≤ 30000) :
    ∃ s : Nat, s ≤ 63 ∧ (nrmExt e).mantissa.value = e.mantissa.value * 2 ^ s ∧
      (nrmExt e).mantissa.Normalized ∧ (nrmExt e).sign = e.sign ∧
      (nrmExt e).exp = e.exp - s := by
  obtain ⟨sign, exponent, mantissa⟩ := nrmExt_eq nonzero
  obtain ⟨s, bound, shifted, normal, -, moved⟩ :=
    fltNrm_spec (e := ⟨false, e.exp, e.mantissa⟩) nonzero
  rw [mantissa, exponent]
  refine ⟨s, bound, shifted, normal, sign, moved.trans ?_⟩
  split
  next none =>
    dsimp only
    omega
  next => exact toShort_of_range (by dsimp only; omega) (by dsimp only; omega)

/-! ## Doubles -/

structure DOUBLE where
  d0 : UInt32
  d1 : UInt32
  deriving DecidableEq

namespace DOUBLE

/-- The long with sign and exponent; `msl` is `FL_MSL_AT_LOW_ADDRESS`. -/
def high (msl : Bool) (x : DOUBLE) : UInt32 := if msl then x.d0 else x.d1

def low (msl : Bool) (x : DOUBLE) : UInt32 := if msl then x.d1 else x.d0

def exponent (msl : Bool) (x : DOUBLE) : Nat := (x.high msl).toNat / 2 ^ 20 % 2 ^ 11

def fraction (msl : Bool) (x : DOUBLE) : Nat :=
  (x.high msl).toNat % 2 ^ 20 * 2 ^ 32 + (x.low msl).toNat

def negative (msl : Bool) (x : DOUBLE) : Prop := 2 ^ 31 ≤ (x.high msl).toNat

instance (msl : Bool) (x : DOUBLE) : Decidable (x.negative msl) :=
  inferInstanceAs (Decidable (_ ≤ _))

def Finite (msl : Bool) (x : DOUBLE) : Prop := x.exponent msl < 2047

instance (msl : Bool) (x : DOUBLE) : Decidable (x.Finite msl) :=
  inferInstanceAs (Decidable (_ < _))

def magnitude (msl : Bool) (x : DOUBLE) : ℚ :=
  if x.exponent msl = 0 then x.fraction msl * (2 : ℚ) ^ (-1074 : Int)
  else (2 ^ 52 + x.fraction msl : Nat) * (2 : ℚ) ^ ((x.exponent msl : Int) - 1075)

def value (msl : Bool) (x : DOUBLE) : ℚ :=
  if x.negative msl then -x.magnitude msl else x.magnitude msl

theorem fraction_lt (msl : Bool) (x : DOUBLE) : x.fraction msl < 2 ^ 52 := by
  have bound := (x.low msl).toNat_lt
  unfold fraction
  omega

end DOUBLE

/-! ## Unpacking -/

def DBL_BIAS : Int := 1023

def extend (msl : Bool) (src : DOUBLE) : EXTEND :=
  -- the `short` with the sign and the exponent is the upper half of the high long
  let half := (src.high msl >>> 16).toUInt16
  let sign := half &&& 0x8000
  let exp := ((half ^^^ sign) >>> 4).toNat
  let leadbit := decide (exp > 0)
  let exp : Int := if exp > 0 then exp else exp + 1
  let m1 := src.high msl
  let tmp := src.low msl
  if exp = 1 ∧ m1 = 0 ∧ tmp = 0 then ⟨0, 0, ⟨0, 0⟩⟩
  else
    let m1 := m1 <<< 11
    let exp := exp - DBL_BIAS
    let m1 := m1 ||| (tmp >>> 21)
    let m2 := tmp <<< 11
    let m1 := m1 ||| NORMBIT
    if leadbit then ⟨sign, exp, ⟨m1, m2⟩⟩
    else nrmExt ⟨sign, exp, ⟨m1 &&& ~~~NORMBIT, m2⟩⟩

theorem or_normbit (a : UInt32) : (a ||| NORMBIT).toNat = a.toNat % 2 ^ 31 + 2 ^ 31 := by
  have bound := a.toNat_lt
  have top : NORMBIT.toNat = 1 * 2 ^ 31 := rfl
  have low : a.toNat % 2 ^ 31 < 2 ^ 31 := Nat.mod_lt _ (by decide)
  rw [UInt32.toNat_or, top]
  rcases Nat.lt_or_ge a.toNat (2 ^ 31) with clear | set
  · rw [or_eq_add_of_lt clear, Nat.mod_eq_of_lt clear, Nat.one_mul]
  · have split : a.toNat = a.toNat % 2 ^ 31 ||| 1 * 2 ^ 31 := by
      rw [or_eq_add_of_lt low]
      omega
    conv_lhs => rw [split, Nat.or_assoc, Nat.or_self, or_eq_add_of_lt low, Nat.one_mul]

theorem or_and_normbit (a : UInt32) :
    ((a ||| NORMBIT) &&& ~~~NORMBIT).toNat = a.toNat % 2 ^ 31 := by
  have mask : (~~~NORMBIT).toNat = 2 ^ 31 - 1 := by decide
  rw [UInt32.toNat_and, or_normbit, mask, Nat.and_two_pow_sub_one_eq_mod]
  omega

theorem signBit (half : UInt16) :
    half &&& 0x8000 = if half.toNat < 2 ^ 15 then 0 else 0x8000 := by
  have bound := half.toNat_lt
  have mask : (0x8000 : UInt16).toNat = 2 ^ 15 := rfl
  refine UInt16.toNat_inj.mp ?_
  rw [UInt16.toNat_and, mask, Nat.and_two_pow, Nat.testBit_eq_decide_div_mod_eq]
  split
  next small =>
    have clear : half.toNat / 2 ^ 15 % 2 ≠ 1 := by omega
    rw [decide_eq_false clear]
    rfl
  next large =>
    have set : half.toNat / 2 ^ 15 % 2 = 1 := by omega
    rw [decide_eq_true set]
    rfl

/-- The exclusive or with its own sign bit leaves the rest of a `short`. -/
theorem xor_signBit (half : UInt16) : (half ^^^ (half &&& 0x8000)).toNat = half.toNat % 2 ^ 15 := by
  have bound := half.toNat_lt
  have mask : (0x8000 : UInt16).toNat = 2 ^ 15 := rfl
  rw [UInt16.toNat_xor, UInt16.toNat_and, mask]
  refine Nat.eq_of_testBit_eq fun i => ?_
  rw [Nat.testBit_xor, Nat.testBit_and, Nat.testBit_two_pow, Nat.testBit_mod_two_pow]
  rcases lt_trichotomy i 15 with below | same | above
  · simp [below, below.ne']
  · simp [same]
  · have none : half.toNat.testBit i = false := by
      refine Nat.testBit_lt_two_pow (bound.trans_le ?_)
      exact Nat.pow_le_pow_right (by decide) above
    simp [none]

structure Unpacked (f : EXTEND) (v : ℚ) : Prop where
  value : f.value = v
  normal : f.mantissa = FltMantissa.zero ∨ f.mantissa.Normalized
  grid : ∃ k, f.mantissa.value = k * 2 ^ 11
  low : -1100 ≤ f.exp
  high : f.exp ≤ 1023
  sign : f.sign = 0 ∨ f.sign = 0x8000

namespace Unpacked

variable {f : EXTEND} {v : ℚ}

theorem eq_zero (unpacked : Unpacked f v) (empty : f.mantissa = FltMantissa.zero) : v = 0 := by
  rw [← unpacked.value, EXTEND.value, empty, EXTEND.signed]
  simp

theorem normalized (unpacked : Unpacked f v) (nonzero : f.mantissa ≠ FltMantissa.zero) :
    f.mantissa.Normalized :=
  unpacked.normal.resolve_left nonzero

theorem range (unpacked : Unpacked f v) (nonzero : f.mantissa ≠ FltMantissa.zero) :
    2 ^ 63 ≤ f.mantissa.value ∧ -1100 ≤ f.exp ∧ f.exp ≤ 1023 :=
  ⟨unpacked.normalized nonzero, unpacked.low, unpacked.high⟩

variable {sign : UInt16}

theorem ofZero {exp : Int} (low : -1100 ≤ exp) (high : exp ≤ 1023)
    (cases : sign = 0 ∨ sign = 0x8000) : Unpacked ⟨sign, exp, FltMantissa.zero⟩ 0 where
  value := by
    change EXTEND.signed sign ((FltMantissa.zero.value : ℚ) * _) = 0
    simp [EXTEND.signed]
  normal := Or.inl rfl
  grid := ⟨0, FltMantissa.value_zero.trans (Nat.zero_mul _).symm⟩
  low := low
  high := high
  sign := cases

variable {m : FltMantissa} {p fraction : Nat} {exp : Int} (bits : p ≤ 52)
include bits

theorem ofNormal (mantissa : m.value = (2 ^ p + fraction) * 2 ^ (63 - p))
    (low : -1100 ≤ exp) (high : exp ≤ 1023) (cases : sign = 0 ∨ sign = 0x8000) :
    Unpacked ⟨sign, exp, m⟩
      (EXTEND.signed sign ((2 ^ p + fraction : Nat) * (2 : ℚ) ^ (exp - p))) where
  value := by
    have scale : exp - p = exp - 63 + (63 - p : Nat) := by omega
    rw [EXTEND.value, EXTEND.unit, mantissa, scale, zpow_add₀ (by norm_num), zpow_natCast]
    push_cast
    ring_nf
  normal := by
    have power : 2 ^ 63 = 2 ^ p * 2 ^ (63 - p) := by rw [← pow_add, Nat.add_sub_cancel' (by omega)]
    refine Or.inr ?_
    change 2 ^ 63 ≤ m.value
    rw [mantissa, power]
    exact Nat.mul_le_mul_right _ (Nat.le_add_right _ _)
  grid := by
    have power : 2 ^ (63 - p) = 2 ^ (52 - p) * 2 ^ 11 := by rw [← pow_add]; congr 1; omega
    exact ⟨(2 ^ p + fraction) * 2 ^ (52 - p), by rw [Nat.mul_assoc, ← power]; exact mantissa⟩
  low := low
  high := high
  sign := cases

theorem ofSubnormal
    (some : fraction ≠ 0) (mantissa : m.value = fraction * 2 ^ (63 - p)) (low : -1037 ≤ exp)
    (high : exp ≤ 1023) (cases : sign = 0 ∨ sign = 0x8000) :
    Unpacked (nrmExt ⟨sign, exp, m⟩) (EXTEND.signed sign (fraction * (2 : ℚ) ^ (exp - p))) := by
  have nonzero : m ≠ FltMantissa.zero := by
    refine mt FltMantissa.value_eq_zero.mpr ?_
    rw [mantissa]
    exact Nat.mul_ne_zero some (Nat.two_pow_pos _).ne'
  obtain ⟨s, bound, shifted, normalized, signs, moved⟩ := nrmExt_spec (e := ⟨sign, exp, m⟩) nonzero
    (by dsimp only; omega) (by dsimp only; omega)
  dsimp only at shifted signs moved
  rw [mantissa] at shifted
  have power : 2 ^ (63 - p) = 2 ^ (52 - p) * 2 ^ 11 := by rw [← pow_add]; congr 1; omega
  refine ⟨?_, Or.inr normalized, ⟨fraction * 2 ^ (52 - p) * 2 ^ s, ?_⟩, by omega, by omega,
    by rw [signs]; exact cases⟩
  · have scale : exp - p = exp - s - 63 + (63 - p + s : Nat) := by omega
    rw [EXTEND.value, EXTEND.unit, signs, shifted, moved, scale, zpow_add₀ (by norm_num),
      zpow_natCast, pow_add]
    push_cast
    ring_nf
  · rw [shifted, power]
    ring

end Unpacked

theorem exponent_field (msl : Bool) (x : DOUBLE) :
    (let half := (x.high msl >>> 16).toUInt16
     ((half ^^^ (half &&& 0x8000)) >>> 4).toNat) = x.exponent msl := by
  have bound := (x.high msl).toNat_lt
  have half : (x.high msl >>> 16).toUInt16.toNat = (x.high msl).toNat / 2 ^ 16 := by
    rw [UInt32.toNat_toUInt16,
      show (x.high msl >>> 16).toNat = _ from toNat_shiftRight_ofNat _ (n := 16) (by decide)]
    omega
  rw [UInt16.toNat_shiftRight, xor_signBit, half]
  change _ >>> 4 = _
  unfold DOUBLE.exponent
  omega

theorem sign_field (msl : Bool) (x : DOUBLE) :
    (x.high msl >>> 16).toUInt16 &&& 0x8000 = if x.negative msl then 0x8000 else 0 := by
  have bound := (x.high msl).toNat_lt
  have half : (x.high msl >>> 16).toUInt16.toNat = (x.high msl).toNat / 2 ^ 16 := by
    rw [UInt32.toNat_toUInt16,
      show (x.high msl >>> 16).toNat = _ from toNat_shiftRight_ofNat _ (n := 16) (by decide)]
    omega
  rw [signBit, half]
  by_cases small : (x.high msl).toNat / 2 ^ 16 < 2 ^ 15
  · have positive : ¬ x.negative msl := by
      unfold DOUBLE.negative
      omega
    rw [if_pos small, if_neg positive]
  · have negative : x.negative msl := by
      unfold DOUBLE.negative
      omega
    rw [if_neg small, if_pos negative]

theorem joined_words (hi lo : UInt32) :
    (hi <<< 11 ||| lo >>> 21).toNat = hi.toNat % 2 ^ 21 * 2 ^ 11 + lo.toNat / 2 ^ 21 ∧
      (lo <<< 11).toNat = lo.toNat % 2 ^ 21 * 2 ^ 11 := by
  have bound := lo.toNat_lt
  have left (w : UInt32) : (w <<< 11).toNat = w.toNat % 2 ^ 21 * 2 ^ 11 :=
    toNat_shiftLeft_ofNat w (n := 11) (by decide)
  have right : (lo >>> 21).toNat = lo.toNat / 2 ^ 21 :=
    toNat_shiftRight_ofNat lo (n := 21) (by decide)
  refine ⟨?_, left lo⟩
  rw [UInt32.toNat_or, left, right, Nat.or_comm, or_eq_add_of_lt (by omega), Nat.add_comm]

theorem leading_set (hi lo : UInt32) :
    (⟨hi <<< 11 ||| lo >>> 21 ||| NORMBIT, lo <<< 11⟩ : B64).value =
      2 ^ 63 + (hi.toNat % 2 ^ 20 * 2 ^ 32 + lo.toNat) * 2 ^ 11 := by
  obtain ⟨joined, low⟩ := joined_words hi lo
  have bound := lo.toNat_lt
  unfold FltMantissa.value
  rw [or_normbit, joined, low]
  omega

theorem leading_clear (hi lo : UInt32) :
    (⟨(hi <<< 11 ||| lo >>> 21 ||| NORMBIT) &&& ~~~NORMBIT, lo <<< 11⟩ : B64).value =
      (hi.toNat % 2 ^ 20 * 2 ^ 32 + lo.toNat) * 2 ^ 11 := by
  obtain ⟨joined, low⟩ := joined_words hi lo
  have bound := lo.toNat_lt
  unfold FltMantissa.value
  rw [or_and_normbit, joined, low]
  omega

def unpackedSign (msl : Bool) (x : DOUBLE) : UInt16 :=
  if x.negative msl then 0x8000 else 0

theorem extend_zero (high : x.high msl = 0) (low : x.low msl = 0) :
    extend msl x = ⟨0, 0, ⟨0, 0⟩⟩ := by
  unfold extend
  simp [high, low]

theorem extend_normal (normal : 0 < x.exponent msl) :
    extend msl x = ⟨unpackedSign msl x, x.exponent msl - 1023,
      ⟨x.high msl <<< 11 ||| x.low msl >>> 21 ||| NORMBIT, x.low msl <<< 11⟩⟩ := by
  have field := exponent_field msl x
  have some : x.high msl ≠ 0 := fun empty => by
    simp [DOUBLE.exponent, empty] at normal
  unfold extend
  simp only [field, normal, some, false_and, and_false]
  rw [sign_field]
  rfl

theorem extend_subnormal (subnormal : x.exponent msl = 0)
    (some : ¬ (x.high msl = 0 ∧ x.low msl = 0)) :
    extend msl x = nrmExt ⟨unpackedSign msl x, -1022,
      ⟨(x.high msl <<< 11 ||| x.low msl >>> 21 ||| NORMBIT) &&& ~~~NORMBIT,
        x.low msl <<< 11⟩⟩ := by
  have field := exponent_field msl x
  unfold extend
  simp only [field, gt_iff_lt, subnormal, some, lt_irrefl, if_false, decide_false, and_false,
    Bool.false_eq_true]
  rw [sign_field]
  rfl

theorem signed_unpackedSign (msl : Bool) (x : DOUBLE) (a : ℚ) :
    EXTEND.signed (unpackedSign msl x) a = if x.negative msl then -a else a := by
  unfold EXTEND.signed unpackedSign
  split <;> simp

theorem unpackedSign_cases (msl : Bool) (x : DOUBLE) :
    unpackedSign msl x = 0 ∨ unpackedSign msl x = 0x8000 := by
  unfold unpackedSign
  split <;> simp

/-- Unpacking a finite double loses nothing. -/
theorem extend_unpacked (msl : Bool) (finite : x.Finite msl) :
    Unpacked (extend msl x) (x.value msl) := by
  unfold DOUBLE.Finite at finite
  by_cases normal : 0 < x.exponent msl
  · -- the leading bit is implicit
    have mantissa := leading_set (x.high msl) (x.low msl)
    change _ = 2 ^ 63 + x.fraction msl * 2 ^ 11 at mantissa
    have value : x.value msl = EXTEND.signed (unpackedSign msl x)
        ((2 ^ 52 + x.fraction msl : Nat) * (2 : ℚ) ^ ((x.exponent msl : Int) - 1023 - (52 : Nat))) := by
      rw [signed_unpackedSign, DOUBLE.value, DOUBLE.magnitude, if_neg normal.ne',
        show (x.exponent msl : Int) - 1023 - (52 : Nat) = x.exponent msl - 1075 by omega]
    rw [extend_normal normal, value]
    exact Unpacked.ofNormal (le_refl 52) (mantissa.trans (by ring)) (by omega) (by omega)
      (unpackedSign_cases msl x)
  · have subnormal : x.exponent msl = 0 := by omega
    have mantissa := leading_clear (x.high msl) (x.low msl)
    change _ = x.fraction msl * 2 ^ 11 at mantissa
    have value : x.value msl =
        EXTEND.signed (unpackedSign msl x) (x.fraction msl * (2 : ℚ) ^ (-1074 : Int)) := by
      rw [signed_unpackedSign, DOUBLE.value, DOUBLE.magnitude, if_pos subnormal]
    by_cases empty : x.high msl = 0 ∧ x.low msl = 0
    · have none : x.fraction msl = 0 := by simp [DOUBLE.fraction, empty]
      have noValue : x.value msl = 0 := by
        rw [value, none]
        simp [EXTEND.signed]
      rw [extend_zero empty.1 empty.2, noValue]
      exact Unpacked.ofZero (by decide) (by decide) (Or.inl rfl)
    · rw [extend_subnormal subnormal empty]
      by_cases none : x.fraction msl = 0
      · -- a zero with its sign: nothing to normalise
        have zero : (⟨(x.high msl <<< 11 ||| x.low msl >>> 21 ||| NORMBIT) &&& ~~~NORMBIT,
            x.low msl <<< 11⟩ : B64) = FltMantissa.zero := by
          refine FltMantissa.value_eq_zero.mp ?_
          rw [mantissa, none, Nat.zero_mul]
        rw [zero, nrmExt_zero rfl]
        have noValue : x.value msl = 0 := by
          rw [value, none]
          simp [EXTEND.signed]
        rw [noValue]
        exact Unpacked.ofZero (by decide) (by decide) (unpackedSign_cases msl x)
      · rw [value]
        exact Unpacked.ofSubnormal (le_refl 52) none mantissa (show (-1037 : Int) ≤ -1022 by decide)
          (show (-1022 : Int) ≤ 1023 by decide) (unpackedSign_cases msl x)

end AckFormal.Fp.Extended
