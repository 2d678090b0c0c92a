import AckFormal.Fp.Singles
import AckFormal.Lib.Truncation

/-!
# Conversion to integers

`cfi` and `cfu` take a single or a double apart with `extend` and shift its mantissa. A trap is
recorded and taken to return.
-/

namespace AckFormal.Fp.Convert

open Flt.Mantissa Flt.Number Extended Singles Lib.Truncation

inductive Source where
  | single (x : SINGLE)
  | double (x : DOUBLE)

namespace Source

def extend (msl : Bool) : Source → EXTEND
  | single x => extendSingle x
  | double x => Extended.extend msl x

def Finite (msl : Bool) : Source → Prop
  | single x => SINGLE.Finite x
  | double x => x.Finite msl

def value (msl : Bool) : Source → ℚ
  | single x => SINGLE.value x
  | double x => x.value msl

end Source

/-- `cfi` with what `extend` delivers: the `long`, and whether it traps. -/
def cfiExt (ds : Nat) (buf : EXTEND) : Int32 × Bool :=
  if buf.exp < 0 then (0, false)
  else
    let maxExp : Int := ds * 8 - 2
    let overflow :=
      buf.exp > maxExp ∧
        ¬ (buf.exp = maxExp + 1 ∧ buf.sign ≠ 0 ∧ buf.m1 = NORMBIT ∧ buf.m2 = 0)
    let exp := if overflow then buf.exp.tmod maxExp else buf.exp
    let new := (buf.m1 >>> UInt32.ofNat (31 - exp).toNat).toInt32
    (if buf.sign ≠ 0 then -new else new, decide overflow)

def cfi (msl : Bool) (ds : Nat) (src : Source) : Int32 × Bool := cfiExt ds (src.extend msl)

def cfuExt (ds : Nat) (buf : EXTEND) : Int32 × Bool :=
  if buf.exp < 0 then (0, false)
  else
    let maxExp : Int := ds * 8 - 1
    let overflow := buf.exp > maxExp
    let exp := if overflow then buf.exp.tmod maxExp else buf.exp
    ((buf.m1 >>> UInt32.ofNat (31 - exp).toNat).toInt32, decide overflow)

def cfu (msl : Bool) (ds : Nat) (src : Source) : Int32 × Bool := cfuExt ds (src.extend msl)

variable {n k ds : Nat} {buf : EXTEND} {v : ℚ}

theorem Source.unpacked {msl : Bool} {src : Source} (finite : src.Finite msl) :
    Unpacked (src.extend msl) (src.value msl) := by
  cases src with
  | single x => exact extendSingle_unpacked finite
  | double x => exact extend_unpacked msl finite

/-! ## The integer part of a mantissa -/

def whole (m : FltMantissa) (exp : Int) : Int := ⌊(m.value : ℚ) * (2 : ℚ) ^ (exp - 63)⌋

theorem whole_neg (m : FltMantissa) {exp : Int} (low : exp < 0) : whole m exp = 0 :=
  floor_small m.value_lt (by omega)

theorem whole_eq (m : FltMantissa) (small : n ≤ 63) :
    whole m n = (m.value / 2 ^ (63 - n) : Nat) := by
  have scale : (n : Int) - 63 = -((63 - n : Nat) : Int) := by omega
  unfold whole
  rw [scale]
  exact floor_right m.value (63 - n)

theorem whole_zero (exp : Int) : whole FltMantissa.zero exp = 0 := by
  unfold whole
  simp

theorem le_whole {m : FltMantissa} (normal : m.Normalized) (n : Nat) :
    ((2 ^ n : Nat) : Int) ≤ whole m n := le_floor normal

theorem whole_lt (m : FltMantissa) (small : n ≤ 63) : whole m n < (2 ^ (n + 1) : Nat) := by
  have power : 2 ^ 64 = 2 ^ (n + 1) * 2 ^ (63 - n) := by
    rw [← pow_add]
    congr 1
    omega
  rw [whole_eq m small]
  refine Int.ofNat_lt.mpr ((Nat.div_lt_iff_lt_mul (Nat.two_pow_pos _)).mpr ?_)
  rw [← power]
  exact m.value_lt

/-- The high word holds the integer part of a number below 2 ** 32. -/
theorem high_word (m : FltMantissa) (small : n ≤ 31) :
    ((m.h32 >>> UInt32.ofNat (31 - n)).toNat : Int) = whole m n := by
  have low := m.l32.toNat_lt
  have word : m.value / 2 ^ 32 = m.h32.toNat := by
    unfold FltMantissa.value
    omega
  have power : 2 ^ (63 - n) = 2 ^ 32 * 2 ^ (31 - n) := by
    rw [← pow_add]
    congr 1
    omega
  rw [whole_eq m (by omega), toNat_shiftRight_ofNat _ (by omega), power, ← Nat.div_div_eq_div_mul,
    word]

def signBool (buf : EXTEND) : Bool := buf.sign ≠ 0

theorem value_eq (buf : EXTEND) :
    buf.value = dyadic (signBool buf) buf.mantissa.value (buf.exp - 63) := by
  unfold EXTEND.value EXTEND.signed EXTEND.unit dyadic signBool
  by_cases zero : buf.sign = 0 <;> simp [zero]

theorem truncate_unpacked (unpacked : Unpacked buf v) :
    truncate v = signed (signBool buf) (whole buf.mantissa buf.exp) := by
  rw [← unpacked.value, value_eq, truncate_dyadic]
  rfl

theorem toInt_of_lt {w : UInt32} (small : w.toNat < 2 ^ 31) : w.toInt32.toInt = w.toNat := by
  change w.toBitVec.toInt = _
  rw [BitVec.toInt_eq_toNat_of_lt (by change 2 * w.toNat < _; omega)]
  rfl

theorem toInt_neg {w : UInt32} (small : w.toNat ≤ 2 ^ 31) : (-w.toInt32).toInt = -w.toNat := by
  rcases Nat.lt_or_eq_of_le small with below | same
  · have plain := toInt_of_lt below
    rw [Int32.toInt_neg, plain, Int.bmod_def]
    split <;> omega
  · have word : w = 0x80000000 := UInt32.toNat_inj.mp same
    rw [word]
    decide

theorem toInt_emod (w : UInt32) : w.toInt32.toInt % 2 ^ 32 = w.toNat := by
  have bound := w.toNat_lt
  change w.toBitVec.toInt % 2 ^ 32 = _
  rw [BitVec.toInt_eq_toNat_bmod]
  change Int.bmod w.toNat (2 ^ 32) % 2 ^ 32 = w.toNat
  rw [Int.bmod_def]
  split <;> omega

/-- What `cfi` shifts out of the high word, with its sign. -/
theorem shifted_signed (small : n ≤ 31) (positive : buf.sign = 0 → whole buf.mantissa n < 2 ^ 31)
    (negative : whole buf.mantissa n ≤ 2 ^ 31) :
    (if buf.sign ≠ 0 then -(buf.m1 >>> UInt32.ofNat (31 - n)).toInt32
      else (buf.m1 >>> UInt32.ofNat (31 - n)).toInt32).toInt =
      signed (signBool buf) (whole buf.mantissa n) := by
  have word : ((buf.m1 >>> UInt32.ofNat (31 - n)).toNat : Int) = whole buf.mantissa n :=
    high_word buf.mantissa small
  by_cases zero : buf.sign = 0
  · have below := positive zero
    rw [← word] at below
    have plus : signBool buf = false := decide_eq_false (not_not.mpr zero)
    rw [if_neg (not_not.mpr zero), toInt_of_lt (by exact_mod_cast below), word, plus, signed_false]
  · have minus : signBool buf = true := decide_eq_true zero
    rw [← word] at negative
    rw [if_pos zero, toInt_neg (by exact_mod_cast negative), word, minus, signed_true]

/-- The low bytes of an integer, as a value of a signed or an unsigned type. -/
def narrow (uns : Bool) (bytes : Nat) (v : Int) : Int :=
  if uns then v % 2 ^ (8 * bytes) else v.bmod (2 ^ (8 * bytes))

def Fits (uns : Bool) (bytes : Nat) (v : Int) : Prop :=
  if uns then 0 ≤ v ∧ v < 2 ^ (8 * bytes)
  else -2 ^ (8 * bytes - 1) ≤ v ∧ v < 2 ^ (8 * bytes - 1)

theorem narrow_of_fits {uns : Bool} {bytes : Nat} {v : Int} (positive : 0 < bytes)
    (fits : Fits uns bytes v) : narrow uns bytes v = v := by
  cases uns with
  | true => exact Int.emod_eq_of_lt fits.1 fits.2
  | false =>
    obtain ⟨low, high⟩ := fits
    have power : (2 : Int) ^ (8 * bytes) = 2 ^ (8 * bytes - 1) * 2 := by
      rw [← pow_succ]
      congr 1
      omega
    have cast : ((2 ^ (8 * bytes) : Nat) : Int) = 2 ^ (8 * bytes - 1) * 2 := by
      rw [Nat.cast_pow, Nat.cast_ofNat, power]
    refine Int.bmod_eq_of_le ?_ ?_
    · omega
    · omega

/-- The number a `long` of `ds` bytes cannot hold, though it can hold the integer part. -/
def BelowLeast (ds : Nat) (v : ℚ) : Prop :=
  truncate v = -2 ^ (8 * ds - 1) ∧ v ≠ -2 ^ (8 * ds - 1)

/-- The largest power of two with a bit of its own is the only mantissa of its value. -/
theorem mantissa_of_power (exp : buf.exp = k) (value : buf.value = -(2 : ℚ) ^ k) :
    buf.m1 = NORMBIT ∧ buf.m2 = 0 := by
  have minus : signBool buf = true := by
    by_contra plus
    rw [value_eq, Bool.eq_false_iff.mpr plus] at value
    have positive : (0 : ℚ) ≤ buf.mantissa.value * (2 : ℚ) ^ (buf.exp - 63) := by positivity
    have power : (0 : ℚ) < (2 : ℚ) ^ k := by positivity
    have same : (buf.mantissa.value : ℚ) * (2 : ℚ) ^ (buf.exp - 63) = -(2 : ℚ) ^ k := value
    linarith
  rw [value_eq, minus, exp] at value
  have scaled : (buf.mantissa.value : ℚ) * (2 : ℚ) ^ ((k : Int) - 63) =
      (2 ^ 63 : Nat) * (2 : ℚ) ^ ((k : Int) - 63) := by
    have split : (2 : ℚ) ^ k = (2 ^ 63 : Nat) * (2 : ℚ) ^ ((k : Int) - 63) := by
      have step : (2 : ℚ) ^ k = (2 : ℚ) ^ ((63 : Nat) + ((k : Int) - 63)) := by
        rw [← zpow_natCast]
        congr 1
        omega
      rw [step, zpow_add₀ (by norm_num), zpow_natCast, Nat.cast_pow, Nat.cast_ofNat]
    have same : -((buf.mantissa.value : ℚ) * (2 : ℚ) ^ ((k : Int) - 63)) = -(2 : ℚ) ^ k := value
    linarith
  have cancelled : (buf.mantissa.value : ℚ) = (2 ^ 63 : Nat) :=
    mul_right_cancel₀ (zpow_ne_zero _ (by norm_num)) scaled
  have words : buf.mantissa.value = 2 ^ 63 := Nat.cast_inj.mp cancelled
  have low := buf.mantissa.l32.toNat_lt
  unfold FltMantissa.value at words
  constructor
  · refine UInt32.toNat_inj.mp ?_
    change buf.mantissa.h32.toNat = 2 ^ 31
    omega
  · refine UInt32.toNat_inj.mp ?_
    change buf.mantissa.l32.toNat = 0
    omega

/-- The bounds on a normalized number whose integer part fits a signed type. -/
theorem signed_bounds (unpacked : Unpacked buf v) (exp : buf.exp = n)
    (normal : buf.mantissa.Normalized) (low : -2 ^ k ≤ truncate v) (high : truncate v < 2 ^ k) :
    n ≤ k ∧ whole buf.mantissa n ≤ 2 ^ k ∧ (buf.sign = 0 → whole buf.mantissa n < 2 ^ k) ∧
      (n = k → truncate v = -2 ^ k) := by
  have part := truncate_unpacked unpacked
  rw [exp] at part
  have least := le_whole normal n
  rw [Nat.cast_pow, Nat.cast_ofNat] at least
  by_cases zero : buf.sign = 0
  · have plus : signBool buf = false := decide_eq_false (not_not.mpr zero)
    rw [plus, signed_false] at part
    have below : (2 : Int) ^ n < 2 ^ k := by omega
    have less : n < k := (pow_lt_pow_iff_right₀ (by norm_num)).mp below
    exact ⟨less.le, by omega, fun _ => by omega, fun same => absurd same less.ne⟩
  · have minus : signBool buf = true := decide_eq_true zero
    rw [minus, signed_true] at part
    have most : (2 : Int) ^ n ≤ 2 ^ k := by omega
    refine ⟨(pow_le_pow_iff_right₀ (by norm_num)).mp most, by omega, fun none => absurd none zero, ?_⟩
    rintro rfl
    omega

/-- Away from that edge the exponent is not too large for `cfi`. -/
theorem not_overflow (positive : 0 < ds) (unpacked : Unpacked buf v) (exp : buf.exp = n)
    (normal : buf.mantissa.Normalized) (fits : Fits false ds (truncate v))
    (inside : ¬ BelowLeast ds v) :
    ¬ (buf.exp > (ds : Int) * 8 - 2 ∧
      ¬ (buf.exp = (ds : Int) * 8 - 2 + 1 ∧ buf.sign ≠ 0 ∧ buf.m1 = NORMBIT ∧ buf.m2 = 0)) := by
  obtain ⟨low, high⟩ : -2 ^ (8 * ds - 1) ≤ truncate v ∧ truncate v < 2 ^ (8 * ds - 1) := fits
  obtain ⟨least, negative, plus, edge⟩ := signed_bounds unpacked exp normal low high
  rintro ⟨above, other⟩
  have last : n = 8 * ds - 1 := by omega
  have power := edge last
  have exact : v = -2 ^ (8 * ds - 1) := by
    by_contra differs
    exact inside ⟨power, differs⟩
  have value : buf.value = -(2 : ℚ) ^ n := by rw [unpacked.value, exact, last]
  have bits := mantissa_of_power exp value
  refine other ⟨by omega, fun zero => ?_, bits⟩
  have less := plus zero
  have more := le_whole normal n
  rw [Nat.cast_pow, Nat.cast_ofNat, last] at more
  rw [last] at less
  omega

/-- Inside the range the conversion truncates. -/
theorem cfiExt_eq (sizes : ds = 2 ∨ ds = 4) (unpacked : Unpacked buf v)
    (fits : Fits false ds (truncate v)) (inside : ¬ BelowLeast ds v) :
    (cfiExt ds buf).1.toInt = truncate v := by
  have part := truncate_unpacked unpacked
  obtain ⟨low, high⟩ : -2 ^ (8 * ds - 1) ≤ truncate v ∧ truncate v < 2 ^ (8 * ds - 1) := fits
  by_cases small : buf.exp < 0
  · rw [cfiExt, if_pos small, part, whole_neg _ small]
    cases signBool buf <;> rfl
  obtain ⟨n, exp⟩ := Int.eq_ofNat_of_zero_le (Int.not_lt.mp small)
  rcases unpacked.normal with empty | normal
  · have none : buf.m1 = 0 := congrArg FltMantissa.h32 empty
    have zero : truncate v = 0 := by
      rw [part, empty, whole_zero]
      cases signBool buf <;> rfl
    have shifted (k : UInt32) : (0 : UInt32) >>> k = 0 := by simp
    rw [cfiExt, if_neg small, zero]
    dsimp only
    rw [none, shifted]
    split <;> rfl
  · obtain ⟨least, negative, positive, -⟩ := signed_bounds unpacked exp normal low high
    have fine := not_overflow (by omega) unpacked exp normal ⟨low, high⟩ inside
    have bound : n ≤ 31 := by omega
    have top : (2 : Int) ^ (8 * ds - 1) ≤ 2 ^ 31 := by
      rcases sizes with rfl | rfl <;> norm_num
    have shift : (31 - (n : Int)).toNat = 31 - n := by omega
    rw [cfiExt, if_neg small]
    dsimp only
    rw [if_neg fine, exp, shift, part, exp]
    exact shifted_signed bound (fun zero => lt_of_lt_of_le (positive zero) top)
      (le_trans negative top)

/-- There it raises no trap either, unless a zero comes with an exponent. -/
theorem cfiExt_quiet (positive : 0 < ds) (unpacked : Unpacked buf v)
    (fits : Fits false ds (truncate v)) (inside : ¬ BelowLeast ds v) (zeros : v = 0 → buf.exp ≤ 0) :
    (cfiExt ds buf).2 = false := by
  by_cases small : buf.exp < 0
  · rw [cfiExt, if_pos small]
  obtain ⟨n, exp⟩ := Int.eq_ofNat_of_zero_le (Int.not_lt.mp small)
  rw [cfiExt, if_neg small]
  refine decide_eq_false ?_
  rcases unpacked.normal with empty | normal
  · have low := zeros (unpacked.eq_zero empty)
    rintro ⟨above, -⟩
    omega
  · exact not_overflow positive unpacked exp normal fits inside

theorem whole_nonneg (m : FltMantissa) (exp : Int) : 0 ≤ whole m exp :=
  Int.floor_nonneg.mpr (by positivity)

theorem value_of_power (exp : buf.exp = k) (minus : signBool buf = true) (m1 : buf.m1 = NORMBIT)
    (m2 : buf.m2 = 0) : buf.value = -(2 : ℚ) ^ k := by
  have words : buf.mantissa.value = 2 ^ 63 := by
    have high : buf.mantissa.h32.toNat = 2 ^ 31 := congrArg UInt32.toNat m1
    have low : buf.mantissa.l32.toNat = 0 := congrArg UInt32.toNat m2
    unfold FltMantissa.value
    omega
  have step : (2 : ℚ) ^ k = (2 : ℚ) ^ ((63 : Nat) + ((k : Int) - 63)) := by
    rw [← zpow_natCast]
    congr 1
    omega
  rw [value_eq, minus, exp, words, step, zpow_add₀ (by norm_num), zpow_natCast]
  unfold dyadic
  rw [if_pos rfl, Nat.cast_pow, Nat.cast_ofNat]

variable (sizes : ds = 2 ∨ ds = 4) (unpacked : Unpacked buf v)
include sizes unpacked

/-- Below the least integer the result is minus two or minus three. -/
theorem cfiExt_edge (below : BelowLeast ds v) :
    (cfiExt ds buf).1.toInt = -2 ∨ (cfiExt ds buf).1.toInt = -3 := by
  obtain ⟨power, differs⟩ := below
  have part := truncate_unpacked unpacked
  have positive : (0 : Int) < 2 ^ (8 * ds - 1) := by positivity
  have wholePos := whole_nonneg buf.mantissa buf.exp
  have minus : signBool buf = true := by
    by_contra plus
    rw [Bool.eq_false_iff.mpr plus, signed_false] at part
    omega
  rw [minus, signed_true] at part
  have amount : whole buf.mantissa buf.exp = 2 ^ (8 * ds - 1) := by omega
  have large : ¬ buf.exp < 0 := by
    intro small
    rw [whole_neg _ small] at amount
    omega
  obtain ⟨n, exp⟩ := Int.eq_ofNat_of_zero_le (Int.not_lt.mp large)
  have normal : buf.mantissa.Normalized := by
    refine unpacked.normal.resolve_left fun empty => ?_
    rw [empty, whole_zero] at amount
    omega
  rw [exp] at amount
  have last : n = 8 * ds - 1 := by
    have least := le_whole normal n
    rw [amount, Nat.cast_pow, Nat.cast_ofNat] at least
    have atMost : n ≤ 8 * ds - 1 := (pow_le_pow_iff_right₀ (by norm_num)).mp least
    have below := whole_lt buf.mantissa (show n ≤ 63 by omega)
    rw [amount, Nat.cast_pow, Nat.cast_ofNat] at below
    have atLeast : 8 * ds - 1 < n + 1 := (pow_lt_pow_iff_right₀ (by norm_num)).mp below
    omega
  have nonzero : buf.sign ≠ 0 := of_decide_eq_true minus
  have overflows : buf.exp > (ds : Int) * 8 - 2 ∧
      ¬ (buf.exp = (ds : Int) * 8 - 2 + 1 ∧ buf.sign ≠ 0 ∧ buf.m1 = NORMBIT ∧ buf.m2 = 0) := by
    refine ⟨by omega, ?_⟩
    rintro ⟨-, -, m1, m2⟩
    have value := value_of_power exp minus m1 m2
    rw [unpacked.value, last] at value
    exact differs value
  have one : (31 - (buf.exp.tmod ((ds : Int) * 8 - 2))).toNat = 30 := by
    rw [exp, last]
    rcases sizes with rfl | rfl <;> decide
  have high := FltMantissa.normalized_iff_high.mp normal
  have highLt := buf.mantissa.h32.toNat_lt
  have word : (buf.m1 >>> UInt32.ofNat 30).toNat = buf.mantissa.h32.toNat / 2 ^ 30 :=
    toNat_shiftRight_ofNat _ (by decide)
  have result : (cfiExt ds buf).1.toInt = -((buf.m1 >>> UInt32.ofNat 30).toNat : Int) := by
    rw [cfiExt, if_neg large]
    dsimp only
    rw [if_pos overflows, one, if_pos nonzero, toInt_neg (by rw [word]; omega)]
  omega

/-- A number that fits is truncated. -/
theorem cfuExt_word (fits : Fits true ds (truncate v)) :
    (((cfuExt ds buf).1.toUInt32.toNat : Nat) : Int) = truncate v ∧
      ((v = 0 → buf.exp ≤ 0) → (cfuExt ds buf).2 = false) := by
  have part := truncate_unpacked unpacked
  obtain ⟨low, high⟩ : 0 ≤ truncate v ∧ truncate v < 2 ^ (8 * ds) := fits
  by_cases small : buf.exp < 0
  · rw [cfuExt, if_pos small, part, whole_neg _ small]
    refine ⟨?_, fun _ => rfl⟩
    cases signBool buf <;> rfl
  obtain ⟨n, exp⟩ := Int.eq_ofNat_of_zero_le (Int.not_lt.mp small)
  rw [cfuExt, if_neg small]
  rcases unpacked.normal with empty | normal
  · have none : buf.m1 = 0 := congrArg FltMantissa.h32 empty
    have zero : truncate v = 0 := by
      rw [part, empty, whole_zero]
      cases signBool buf <;> rfl
    have shifted (k : UInt32) : (0 : UInt32) >>> k = 0 := by simp
    rw [zero]
    dsimp only
    rw [none, shifted]
    refine ⟨rfl, fun zeros => decide_eq_false ?_⟩
    have level := zeros (unpacked.eq_zero empty)
    omega
  · have least := le_whole normal n
    have positive : (0 : Int) < (2 ^ n : Nat) := by positivity
    rw [exp] at part
    have plus : signBool buf = false := by
      by_contra minus
      rw [Bool.not_eq_false] at minus
      rw [minus, signed_true] at part
      omega
    rw [plus, signed_false] at part
    have below : ((2 ^ n : Nat) : Int) < 2 ^ (8 * ds) := by omega
    rw [Nat.cast_pow, Nat.cast_ofNat] at below
    have less : n < 8 * ds := (pow_lt_pow_iff_right₀ (by norm_num)).mp below
    have fine : ¬ buf.exp > (ds : Int) * 8 - 1 := by omega
    have shift : (31 - (n : Int)).toNat = 31 - n := by omega
    have word : ((buf.m1 >>> UInt32.ofNat (31 - n)).toNat : Int) = whole buf.mantissa n :=
      high_word buf.mantissa (by omega)
    dsimp only
    refine ⟨?_, fun _ => decide_eq_false fine⟩
    rw [if_neg fine, exp, shift, part]
    exact word

theorem cfuExt_eq
    (fits : Fits true ds (truncate v)) : narrow true ds (cfuExt ds buf).1.toInt = truncate v := by
  have keep : (2 : Int) ^ (8 * ds) ∣ 2 ^ 32 := pow_dvd_pow 2 (by omega)
  have word : (cfuExt ds buf).1.toInt % 2 ^ 32 = (cfuExt ds buf).1.toUInt32.toNat :=
    toInt_emod (cfuExt ds buf).1.toUInt32
  have exact := (cfuExt_word sizes unpacked fits).1
  obtain ⟨low, high⟩ := fits
  change _ % 2 ^ (8 * ds) = _
  rw [← Int.emod_emod_of_dvd _ keep, word, exact]
  exact Int.emod_eq_of_lt low high

end AckFormal.Fp.Convert
