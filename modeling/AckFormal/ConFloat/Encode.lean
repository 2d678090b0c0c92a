import AckFormal.Flt.Str2Flt

/-!
# Floating point constants

`float_cst` of `h/con_float`, in the configuration with IEEE numbers and the
most significant byte first.  It reads a literal with `flt_str2flt`, rounds the
mantissa to the bits that are kept, adds the bias, makes room for a subnormal
result, and packs the bytes.
-/

namespace AckFormal.ConFloat.Encode

open Flt Mantissa Number FltArith Str2Flt

def roundSingle (exp : Int) (m : FltMantissa) : Int × FltMantissa :=
  if m.h32 &&& 0x80 ≠ 0 then
    if m.h32 &&& 0xffffff00 = 0xffffff00 then (toShort (exp + 1), ⟨0x80000000, m.l32⟩)
    else (exp, ⟨m.h32 + 0x80, m.l32⟩)
  else (exp, m)

def roundDouble (exp : Int) (m : FltMantissa) : Int × FltMantissa :=
  if m.l32 &&& 0x400 ≠ 0 then
    if m.l32 &&& 0xfffff800 = 0xfffff800 then
      if m.h32 = 0xffffffff then (toShort (exp + 1), ⟨0x80000000, 0⟩)
      else (exp, ⟨m.h32 + 1, 0⟩)
    else (exp, ⟨m.h32, m.l32 + 0x400⟩)
  else (exp, m)

/-- The exponent as it is stored, and the mantissa that goes with it: an
exponent of `top` or more is an overflow, one of zero or less a subnormal
number. -/
def fitExponent (top exp : Int) (m : FltMantissa) : Bool × Int × FltMantissa :=
  if exp ≥ top then (true, top, FltMantissa.zero)
  else if exp ≤ 0 then
    let m := fltB64Sft m 1
    if exp < 0 then (false, 0, fltB64Sft m (-exp)) else (false, exp, m)
  else (false, exp, m)

def signBit (sign : Bool) : Nat := if sign then 1 else 0

def singleBytes (sign : Bool) (exp : Nat) (m : FltMantissa) : List UInt8 :=
  [UInt8.ofNat ((signBit sign <<< 7) ||| (exp >>> 1)),
    UInt8.ofNat (((exp &&& 1) <<< 7) ||| ((m.h32.toNat &&& 0x7fffffff) >>> 24)),
    UInt8.ofNat (m.h32.toNat >>> 16),
    UInt8.ofNat (m.h32.toNat >>> 8)]

def doubleBytes (sign : Bool) (exp : Nat) (m : FltMantissa) : List UInt8 :=
  [UInt8.ofNat ((signBit sign <<< 7) ||| (exp >>> 4)),
    UInt8.ofNat (((exp &&& 0xf) <<< 4) ||| ((m.h32.toNat >>> 27) &&& 0xf)),
    UInt8.ofNat (m.h32.toNat >>> 19),
    UInt8.ofNat (m.h32.toNat >>> 11),
    UInt8.ofNat (m.h32.toNat >>> 3),
    UInt8.ofNat ((m.h32.toNat <<< 5) ||| ((m.l32.toNat >>> 27) &&& 0x1f)),
    UInt8.ofNat (m.l32.toNat >>> 19),
    UInt8.ofNat (m.l32.toNat >>> 11)]

def biasedExponent (bias : Int) (e : FltArith) : Int :=
  if e.m1 = 0 then 0 else toShort (e.exp + bias)

/-- The branch for four bytes: whether it overflowed, and the bytes. -/
def singleCst (e : FltArith) : Bool × List UInt8 :=
  let (exp, m) := roundSingle (biasedExponent 127 e) e.mantissa
  let (overflow, exp, m) := fitExponent 255 exp m
  (overflow, singleBytes e.sign exp.toNat m)

def doubleCst (e : FltArith) : Bool × List UInt8 :=
  let (exp, m) := roundDouble (biasedExponent 1023 e) e.mantissa
  let (overflow, exp, m) := fitExponent 2047 exp m
  (overflow, doubleBytes e.sign exp.toNat m)

/-- `float_cst`: the return value and the bytes that are filled in. -/
def floatCst (str : List UInt8) (sz : Nat) : Nat × List UInt8 :=
  if sz ≠ 4 ∧ sz ≠ 8 then (1, [])
  else
    let e := (fltStr2flt str).1
    let (overflow, buf) := if sz = 4 then singleCst e else doubleCst e
    (if overflow then 2 else 0, buf)

/-! ## What the steps do to the mantissa -/

theorem and_high_mask {x k : Nat} (bound : x < 2 ^ 32) (small : k ≤ 32) :
    x &&& (2 ^ 32 - 2 ^ k) = x / 2 ^ k * 2 ^ k := by
  have mask : 2 ^ 32 - 2 ^ k = (2 ^ (32 - k) - 1) * 2 ^ k := by
    rw [Nat.sub_mul, one_mul, ← pow_add]
    congr 2
    omega
  rw [mask]
  refine Nat.eq_of_testBit_eq fun i => ?_
  rw [Nat.testBit_and, ← Nat.shiftLeft_eq, ← Nat.shiftLeft_eq, ← Nat.shiftRight_eq_div_pow,
    Nat.testBit_shiftLeft, Nat.testBit_shiftLeft, Nat.testBit_two_pow_sub_one,
    Nat.testBit_shiftRight]
  by_cases high : k ≤ i
  · simp only [high]
    rw [Nat.add_sub_cancel' high]
    by_cases inside : i - k < 32 - k
    · simp [inside]
    · have beyond : x.testBit i = false :=
        Nat.testBit_lt_two_pow (lt_of_lt_of_le bound (Nat.pow_le_pow_right (by decide) (by omega)))
      simp [beyond]
  · simp [high]

theorem high_mask_iff (w : UInt32) (mask : UInt32) {k : Nat} (small : k ≤ 32)
    (isMask : mask.toNat = 2 ^ 32 - 2 ^ k) :
    w &&& mask = mask ↔ w.toNat / 2 ^ k = 2 ^ (32 - k) - 1 := by
  have total : (2 ^ 32 - 2 ^ k : Nat) = (2 ^ (32 - k) - 1) * 2 ^ k := by
    rw [Nat.sub_mul, one_mul, ← pow_add]
    congr 2
    omega
  rw [← UInt32.toNat_inj, UInt32.toNat_and, isMask, and_high_mask w.toNat_lt small, total,
    Nat.mul_left_inj (Nat.two_pow_pos k).ne']

theorem roundSingle_spec (exp : Int) (m : FltMantissa) :
    ((m.value + 2 ^ 39) / 2 ^ 40 < 2 ^ 24 →
      (roundSingle exp m).1 = exp ∧
        (roundSingle exp m).2.value / 2 ^ 40 = (m.value + 2 ^ 39) / 2 ^ 40) ∧
    (2 ^ 24 ≤ (m.value + 2 ^ 39) / 2 ^ 40 →
      (roundSingle exp m).1 = toShort (exp + 1) ∧
        (roundSingle exp m).2.value / 2 ^ 40 = 2 ^ 23) := by
  have high := m.h32.toNat_lt
  have low := m.l32.toNat_lt
  have bit : m.h32 &&& 0x80 = 0 ↔ m.h32.toNat / 2 ^ 7 % 2 = 0 := by
    rw [UInt32.and_comm, mask_and_eq_zero (show (0x80 : UInt32).toNat = 2 ^ 7 from rfl)]
  have ones : m.h32 &&& 0xffffff00 = 0xffffff00 ↔ m.h32.toNat / 2 ^ 8 = 2 ^ 24 - 1 :=
    high_mask_iff m.h32 0xffffff00 (by decide) rfl
  have sum : (m.h32 + 0x80).toNat = (m.h32.toNat + 128) % 2 ^ 32 := UInt32.toNat_add m.h32 0x80
  simp only [roundSingle, ne_eq, bit, ones]
  split_ifs <;>
    refine ⟨fun small => ?_, fun large => ?_⟩ <;>
    simp only [FltMantissa.value, UInt32.reduceToNat, true_and] at * <;>
    omega

theorem roundDouble_spec (exp : Int) (m : FltMantissa) :
    ((m.value + 2 ^ 10) / 2 ^ 11 < 2 ^ 53 →
      (roundDouble exp m).1 = exp ∧
        (roundDouble exp m).2.value / 2 ^ 11 = (m.value + 2 ^ 10) / 2 ^ 11) ∧
    (2 ^ 53 ≤ (m.value + 2 ^ 10) / 2 ^ 11 →
      (roundDouble exp m).1 = toShort (exp + 1) ∧
        (roundDouble exp m).2.value / 2 ^ 11 = 2 ^ 52) := by
  have high := m.h32.toNat_lt
  have low := m.l32.toNat_lt
  have bit : m.l32 &&& 0x400 = 0 ↔ m.l32.toNat / 2 ^ 10 % 2 = 0 := by
    rw [UInt32.and_comm, mask_and_eq_zero (show (0x400 : UInt32).toNat = 2 ^ 10 from rfl)]
  have ones : m.l32 &&& 0xfffff800 = 0xfffff800 ↔ m.l32.toNat / 2 ^ 11 = 2 ^ 21 - 1 :=
    high_mask_iff m.l32 0xfffff800 (by decide) rfl
  have full : m.h32 = 0xffffffff ↔ m.h32.toNat = 2 ^ 32 - 1 := by
    rw [← UInt32.toNat_inj]
    rfl
  have sum : (m.l32 + 0x400).toNat = (m.l32.toNat + 1024) % 2 ^ 32 := UInt32.toNat_add m.l32 0x400
  have next : (m.h32 + 1).toNat = (m.h32.toNat + 1) % 2 ^ 32 := UInt32.toNat_add m.h32 1
  simp only [roundDouble, ne_eq, bit, ones, full]
  split_ifs <;>
    refine ⟨fun small => ?_, fun large => ?_⟩ <;>
    simp only [FltMantissa.value, UInt32.reduceToNat, true_and] at * <;>
    omega

theorem fitExponent_subnormal {top exp : Int} (m : FltMantissa) (positive : 0 < top)
    (low : exp ≤ 0) :
    ∃ shifted, fitExponent top exp m = (false, 0, shifted) ∧
      shifted.value = m.value / 2 ^ (1 - exp).toNat := by
  unfold fitExponent
  rw [if_neg (by omega), if_pos low]
  obtain ⟨n, rfl⟩ : ∃ n : Nat, exp = -(n : Int) := ⟨(-exp).toNat, by omega⟩
  have once := fltB64Sft_div m 1
  have count : (1 - -(n : Int)).toNat = 1 + n := by omega
  rw [Nat.cast_one] at once
  by_cases zero : n = 0
  · subst zero
    refine ⟨fltB64Sft m 1, by simp, ?_⟩
    rw [once, count]
  · refine ⟨fltB64Sft (fltB64Sft m 1) n, ?_, ?_⟩
    · rw [if_pos (by omega), Int.neg_neg]
    · rw [fltB64Sft_div, once, count, Nat.div_div_eq_div_mul, ← pow_add]

end AckFormal.ConFloat.Encode
