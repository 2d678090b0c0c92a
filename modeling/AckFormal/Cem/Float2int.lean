import AckFormal.Cem.Cstoper
import AckFormal.Fp.Convert
import AckFormal.Flt.Integers

/-!
# Floating constants converted to integers

`float2int` of the C compiler converts a floating constant when it compiles; what does not fit four
bytes is left to the conversion at run time, which is `cfi` or `cfu`, as `conversion` has it.
-/

namespace AckFormal.Cem

open Flt.Mantissa Flt.Number Flt.Conversions Flt.Integers Fp.Extended Fp.Singles Fp.Convert
open Cstoper (Writh Tp fullMask fullMask_toNat cutSize cutSize_isSome cutSize_some)
open Lib.Truncation

def fit4 (val : Writh) (uns : Bool) : Bool :=
  let u := if uns then val else val + 0x80000000
  (u &&& fullMask 4) == u

/-- The constant that a floating constant becomes, unless the conversion is deferred. -/
def float2int (e : FltArith) (size : Nat) (uns : Bool) : Option Int64 :=
  let (ar, _, status) := fltFlt2arith e uns
  if status ≠ .ovfl ∧ status ≠ .unfl ∧ fit4 ar.toBitVec uns then
    (cutSize false false ⟨⟨uns, size, false⟩, ar.toBitVec, 0⟩).2.map fun ex =>
      Int64.ofBitVec ex.value
  else none

/-- The size the machine converts to: that of the type, but at least a word. -/
def runSize (word size : Nat) : Nat := if size < word then word else size

/-- The conversion at run time to an integral type of `size` bytes: the bytes of the `long` that are
pushed, and the narrowing to a type shorter than a word. -/
def conversion (msl : Bool) (word size : Nat) (uns : Bool) (src : Source) : Int :=
  let ds := runSize word size
  let long := if uns then (cfu msl ds src).1 else (cfi msl ds src).1
  let pushed := narrow uns ds long.toInt
  if size < word then narrow uns size pushed else pushed

def constant (e : FltArith) : ℚ := dyadic e.sign e.mantissa.value (e.exp - 63)

theorem truncate_constant (e : FltArith) :
    truncate (constant e) = signed e.sign (whole e.mantissa e.exp) :=
  truncate_dyadic _ _ _

/-! ## The integer that is stored -/

theorem fullMask_four (u : Writh) : (u &&& fullMask 4).toNat = u.toNat % 2 ^ 32 := by
  rw [BitVec.toNat_and, fullMask_toNat (by decide), Nat.and_two_pow_sub_one_eq_mod]

variable {uns : Bool} {size : Nat} {e : FltArith}

/-- What fits a type of four bytes is converted by the compiler. -/
theorem fit4_of_fits {val : Int64} (fits : Fits uns 4 val.toInt) :
    fit4 val.toBitVec uns = true := by
  have word : (val.toBitVec.toNat : Int) = val.toInt % 2 ^ 64 := toUInt64_toNat val
  refine beq_iff_eq.mpr (BitVec.eq_of_toNat_eq ?_)
  rw [fullMask_four]
  cases uns with
  | true =>
    obtain ⟨low, high⟩ : 0 ≤ val.toInt ∧ val.toInt < 2 ^ 32 := fits
    rw [if_pos rfl]
    omega
  | false =>
    obtain ⟨low, high⟩ : -2 ^ 31 ≤ val.toInt ∧ val.toInt < 2 ^ 31 := fits
    have sum : (val.toBitVec + 0x80000000).toNat = (val.toBitVec.toNat + 2 ^ 31) % 2 ^ 64 :=
      BitVec.toNat_add _ _
    rw [if_neg Bool.false_ne_true, sum]
    omega

/-- The word of a type stands for a number that fits the type. -/
theorem number_of_fits (sizes : size = 1 ∨ size = 2 ∨ size = 4) {o1 : Int64}
    (fits : Fits uns size o1.toInt) :
    (Tp.mk uns size false).number ((Tp.mk uns size false).word o1.toBitVec) = o1.toInt := by
  have word : (o1.toBitVec.toNat : Int) = o1.toInt % 2 ^ 64 := toUInt64_toNat o1
  cases uns with
  | true =>
    obtain ⟨low, high⟩ : 0 ≤ o1.toInt ∧ o1.toInt < 2 ^ (8 * size) := fits
    change ((o1.toBitVec.setWidth (8 * size)).toNat : Int) = _
    rw [BitVec.toNat_setWidth]
    rcases sizes with rfl | rfl | rfl <;> omega
  | false =>
    obtain ⟨low, high⟩ : -2 ^ (8 * size - 1) ≤ o1.toInt ∧ o1.toInt < 2 ^ (8 * size - 1) := fits
    change (o1.toBitVec.setWidth (8 * size)).toInt = _
    rw [BitVec.toInt_setWidth, Int.bmod_def]
    rcases sizes with rfl | rfl | rfl <;> omega

theorem cutSize_of_fits (sizes : size = 1 ∨ size = 2 ∨ size = 4) {o1 : Int64}
    (fits : Fits uns size o1.toInt) :
    ((cutSize false false ⟨⟨uns, size, false⟩, o1.toBitVec, 0⟩).2.map fun ex =>
      Int64.ofBitVec ex.value) = some o1 := by
  have integral : Tp.Integral ⟨uns, size, false⟩ := ⟨rfl, by dsimp only; omega⟩
  obtain ⟨cut, done⟩ := Option.isSome_iff_exists.mp
    ((@cutSize_isSome false false ⟨⟨uns, size, false⟩, o1.toBitVec, 0⟩ integral).mpr
      fun strict => by cases strict)
  rw [done, cutSize_some integral done, Option.map_some, Tp.extend_number,
    number_of_fits sizes fits]
  exact congrArg some (congrArg Int64.ofBitVec (BitVec.ofInt_toInt ..))

/-! ## What the compiler folds -/

theorem fltFlt2arith_whole {n : Nat} (plain : ¬ (e.sign ∧ uns)) (exp : e.exp = n) (small : n ≤ 31) :
    ∃ a : Int64, fltFlt2arith e uns = (a, e, .ok) ∧ a.toInt = signed e.sign (whole e.mantissa n) := by
  have fits : FitsArith e uns := Or.inl (by split <;> omega)
  obtain ⟨a, result, value⟩ :=
    fltFlt2arith_word plain (show e.exp = 63 - (63 - n : Nat) by omega) (by omega) fits
  refine ⟨a, result, ?_⟩
  have bound := whole_lt e.mantissa (show n ≤ 63 by omega)
  have most : ((2 ^ (n + 1) : Nat) : Int) ≤ (2 ^ 32 : Nat) :=
    Int.ofNat_le.mpr (Nat.pow_le_pow_right (by decide) (by omega))
  rw [whole_eq e.mantissa (by omega)] at bound ⊢
  rw [value, Nat.mod_eq_of_lt (Int.ofNat_lt.mp (lt_of_lt_of_le bound most))]

/-- Zero gives zero, or is left to the run time where its exponent is out of range. -/
theorem fltFlt2arith_empty (plain : ¬ (e.sign ∧ uns)) (large : ¬ e.exp < 0)
    (empty : e.mantissa = FltMantissa.zero) :
    (fltFlt2arith e uns).1 = 0 ∨ (fltFlt2arith e uns).2.2 = .ovfl := by
  have other : ¬ (e.sign ∧ e.exp = 63 ∧ e.m2 = 0 ∧ e.m1 = 0x80000000) := by
    rintro ⟨-, -, -, top⟩
    rw [FltArith.m1, empty] at top
    exact absurd top (by decide)
  by_cases far : e.exp > 62 + (if uns then 1 else 0)
  · right
    unfold fltFlt2arith
    rw [if_neg plain, if_neg large, if_pos far, if_neg other]
  · left
    obtain ⟨n, count⟩ : ∃ n : Nat, 63 - e.exp = n := ⟨(63 - e.exp).toNat, by omega⟩
    have none : fltB64Sft e.mantissa (63 - e.exp) = FltMantissa.zero := by
      refine FltMantissa.value_eq_zero.mp ?_
      rw [count, fltB64Sft_right e.mantissa (by omega), empty, FltMantissa.value_zero, Nat.zero_div]
    unfold fltFlt2arith
    dsimp only
    rw [if_neg plain, if_neg large, if_neg far]
    rw [none]
    cases e.sign <;> rfl

/-- The shape of the constants that the floating-point package delivers. -/
def Shaped (e : FltArith) : Prop := e.mantissa.Normalized ∨ e.mantissa = FltMantissa.zero

/-- The sizes of the integral types that `cfi` and `cfu` serve, and of the machine's word. -/
structure Sizes (word size : Nat) : Prop where
  word : word = 2 ∨ word = 4
  size : size = 1 ∨ size = 2 ∨ size = 4

theorem Sizes.run {word : Nat} (sizes : Sizes word size) :
    runSize word size = 2 ∨ runSize word size = 4 := by
  have words := sizes.word
  have types := sizes.size
  unfold runSize
  split <;> omega

theorem Sizes.le_run {word : Nat} : size ≤ runSize word size := by
  unfold runSize
  split <;> omega

theorem fits_mono {a b : Nat} {v : Int} (le : a ≤ b) (fits : Fits uns a v) : Fits uns b v := by
  have power : (2 : Int) ^ (8 * a) ≤ 2 ^ (8 * b) :=
    pow_le_pow_right₀ (by norm_num) (by omega)
  have half : (2 : Int) ^ (8 * a - 1) ≤ 2 ^ (8 * b - 1) :=
    pow_le_pow_right₀ (by norm_num) (by omega)
  cases uns with
  | true => exact ⟨fits.1, lt_of_lt_of_le fits.2 power⟩
  | false => exact ⟨le_trans (neg_le_neg half) fits.1, lt_of_lt_of_le fits.2 half⟩

theorem magnitude_lt {sign : Bool} {v : Int} (fits : Fits uns 4 (signed sign v)) : v < 2 ^ 32 := by
  cases uns with
  | true =>
    obtain ⟨low, high⟩ : 0 ≤ signed sign v ∧ signed sign v < 2 ^ 32 := fits
    cases sign <;> simp only [signed_true, signed_false] at low high <;> omega
  | false =>
    obtain ⟨low, high⟩ : -2 ^ 31 ≤ signed sign v ∧ signed sign v < 2 ^ 31 := fits
    cases sign <;> simp only [signed_true, signed_false] at low high <;> omega

theorem exponent_le {n : Nat} (normal : e.mantissa.Normalized) (exp : e.exp = n)
    (fits : Fits uns 4 (truncate (constant e))) : n ≤ 31 := by
  have least := le_whole normal n
  rw [truncate_constant, exp] at fits
  have below : (2 : Int) ^ n < 2 ^ 32 := lt_of_le_of_lt least (magnitude_lt fits)
  have less : n < 32 := (pow_lt_pow_iff_right₀ (by norm_num)).mp below
  omega

section

variable (sizes : size = 1 ∨ size = 2 ∨ size = 4)
include sizes

theorem float2int_of_fits {a : Int64}
    (result : fltFlt2arith e uns = (a, e, .ok)) (fits : Fits uns size a.toInt) :
    ∃ v, float2int e size uns = some v ∧ v.toInt = a.toInt := by
  have four : Fits uns 4 a.toInt := fits_mono (by omega) fits
  refine ⟨a, ?_, rfl⟩
  unfold float2int
  rw [result, ← cutSize_of_fits sizes fits]
  exact if_pos ⟨by decide, by decide, fit4_of_fits four⟩

/-- A constant that fits is folded to its integer part. -/
theorem float2int_normal (plain : ¬ (e.sign ∧ uns))
    (normal : e.mantissa.Normalized) (inside : ¬ (e.sign ∧ e.exp < 0))
    (fits : Fits uns size (truncate (constant e))) :
    ∃ v, float2int e size uns = some v ∧ v.toInt = truncate (constant e) := by
  by_cases small : e.exp < 0
  · have plus : e.sign = false := Bool.eq_false_iff.mpr fun minus => inside ⟨minus, small⟩
    have zero : truncate (constant e) = 0 := by
      rw [truncate_constant, whole_neg _ small, plus, signed_false]
    have result := fltFlt2arith_small plain small
    rw [plus] at result
    rw [zero] at fits ⊢
    exact float2int_of_fits sizes result fits
  · obtain ⟨n, exp⟩ := Int.eq_ofNat_of_zero_le (Int.not_lt.mp small)
    have bound := exponent_le normal exp (fits_mono (by omega) fits)
    obtain ⟨a, result, value⟩ := fltFlt2arith_whole plain exp bound
    rw [truncate_constant, exp, ← value] at fits ⊢
    exact float2int_of_fits sizes result fits

/-- Whatever is folded is the integer part, except for negative numbers above minus one. -/
theorem float2int_eq (shaped : Shaped e)
    (inside : uns = true ∨ ¬ (e.sign ∧ e.exp < 0)) (fits : Fits uns size (truncate (constant e)))
    {v : Int64} (folded : float2int e size uns = some v) : v.toInt = truncate (constant e) := by
  by_cases plain : e.sign ∧ uns
  · unfold float2int fltFlt2arith at folded
    rw [if_pos plain] at folded
    exact absurd folded (by simp)
  have above : ¬ (e.sign ∧ e.exp < 0) := by
    rcases inside with unsigned | above
    · exact fun both => plain ⟨both.1, unsigned⟩
    · exact above
  rcases shaped with normal | empty
  · obtain ⟨w, same, value⟩ := float2int_normal sizes plain normal above fits
    rw [same] at folded
    rw [← Option.some_inj.mp folded, value]
  · have zero : truncate (constant e) = 0 := by
      rw [truncate_constant, empty, whole_zero]
      cases e.sign <;> rfl
    have integer : (fltFlt2arith e uns).1 = 0 ∨ (fltFlt2arith e uns).2.2 = .ovfl := by
      by_cases small : e.exp < 0
      · have plus : e.sign = false := Bool.eq_false_iff.mpr fun minus => above ⟨minus, small⟩
        left
        rw [fltFlt2arith_small plain small, plus]
        rfl
      · exact fltFlt2arith_empty plain small empty
    unfold float2int at folded
    dsimp only at folded
    rw [zero]
    rcases integer with none | overflow
    · rw [none] at folded
      have fits0 : Fits uns size (0 : Int64).toInt := by
        rw [zero] at fits
        exact fits
      have cut := cutSize_of_fits sizes fits0
      split at folded
      · rw [cut] at folded
        rw [← Option.some_inj.mp folded]
        rfl
      · exact absurd folded (by simp)
    · rw [overflow] at folded
      exact absurd folded (by simp)

theorem float2int_fraction (minus : e.sign = true)
    (small : e.exp < 0) : ∃ v, float2int e size false = some v ∧ v.toInt = -1 := by
  have plain : ¬ (e.sign = true ∧ false = true) := by simp
  have result := fltFlt2arith_small plain small
  rw [minus] at result
  have fits : Fits false size (Int64.ofInt (-1)).toInt := by
    rcases sizes with rfl | rfl | rfl <;> exact ⟨by decide, by decide⟩
  exact float2int_of_fits sizes result fits

end

/-! ## What the run time gives -/

/-- Away from the edge of `cfi`, the conversion at run time is truncation. -/
theorem conversion_eq {msl : Bool} {word size : Nat} (sizes : Sizes word size) {uns : Bool}
    {src : Source} (finite : src.Finite msl) (fits : Fits uns size (truncate (src.value msl)))
    (inside : uns = true ∨ ¬ BelowLeast (runSize word size) (src.value msl)) :
    conversion msl word size uns src = truncate (src.value msl) := by
  have unpacked := Source.unpacked finite
  have run := sizes.run
  have wide : Fits uns (runSize word size) (truncate (src.value msl)) := fits_mono Sizes.le_run fits
  have positive : 0 < runSize word size := by omega
  have least : 0 < size := by
    have types := sizes.size
    omega
  have pushed : narrow uns (runSize word size)
      (if uns then (cfu msl (runSize word size) src).1 else (cfi msl (runSize word size) src).1).toInt =
        truncate (src.value msl) := by
    cases uns with
    | true => exact cfuExt_eq run unpacked wide
    | false =>
      have away := inside.resolve_left Bool.false_ne_true
      have long : (cfi msl (runSize word size) src).1.toInt = truncate (src.value msl) :=
        cfiExt_eq run unpacked wide away
      rw [if_neg Bool.false_ne_true, long]
      exact narrow_of_fits positive wide
  unfold conversion
  dsimp only
  rw [pushed, narrow_of_fits least fits, ite_self]

/-- A number just below the least one of the type, which truncation would bring into range. -/
theorem conversion_edge {msl : Bool} {word size : Nat} (sizes : Sizes word size)
    {src : Source} (finite : src.Finite msl) (fits : Fits false size (truncate (src.value msl)))
    (below : BelowLeast (runSize word size) (src.value msl)) :
    conversion msl word size false src ≠ truncate (src.value msl) := by
  have unpacked := Source.unpacked finite
  have run := sizes.run
  have positive : 0 < runSize word size := by omega
  have edge := cfiExt_edge run unpacked below
  have whole : ¬ size < word := by
    intro short
    obtain ⟨low, -⟩ : -2 ^ (8 * size - 1) ≤ truncate (src.value msl) ∧ _ := fits
    have long : runSize word size = word := if_pos short
    have less : (2 : Int) ^ (8 * size - 1) < 2 ^ (8 * word - 1) :=
      pow_lt_pow_right₀ (by norm_num) (by omega)
    rw [below.1, long] at low
    omega
  have fine : Fits false (runSize word size) (cfi msl (runSize word size) src).1.toInt := by
    have low : (cfi msl (runSize word size) src).1.toInt = -2 ∨
      (cfi msl (runSize word size) src).1.toInt = -3 := edge
    rcases run with two | four
    · rw [two] at low ⊢
      rcases low with same | same <;> rw [same] <;> exact ⟨by norm_num, by norm_num⟩
    · rw [four] at low ⊢
      rcases low with same | same <;> rw [same] <;> exact ⟨by norm_num, by norm_num⟩
  have result : conversion msl word size false src = (cfi msl (runSize word size) src).1.toInt := by
    unfold conversion
    dsimp only
    rw [if_neg Bool.false_ne_true, narrow_of_fits positive fine, if_neg whole]
  have large : (2 : Int) ^ 15 ≤ 2 ^ (8 * runSize word size - 1) :=
    pow_le_pow_right₀ (by norm_num) (by omega)
  have short : (cfi msl (runSize word size) src).1.toInt = -2 ∨
    (cfi msl (runSize word size) src).1.toInt = -3 := edge
  rw [result, below.1]
  omega

/-- The compiler folds a constant to what the conversion at run time gives, unless it is a negative
one above minus one, or lies below the least integer of the size that is converted to and within one
of it. -/
theorem float2int_agrees_iff {msl : Bool} {word size : Nat} (sizes : Sizes word size) {uns : Bool}
    {e : FltArith} (shaped : Shaped e) {src : Source} (finite : src.Finite msl)
    (same : src.value msl = constant e) (fits : Fits uns size (truncate (constant e))) :
    (∀ v, float2int e size uns = some v → v.toInt = conversion msl word size uns src) ↔
      uns = true ∨
        ¬ (e.sign = true ∧ e.exp < 0) ∧ ¬ BelowLeast (runSize word size) (constant e) := by
  have run := @conversion_eq msl word size sizes uns src finite
  rw [same] at run
  constructor
  · intro agrees
    refine or_iff_not_imp_left.mpr fun other => ?_
    obtain rfl : uns = false := Bool.eq_false_iff.mpr other
    have inside : ¬ (e.sign ∧ e.exp < 0) := by
      rintro ⟨minus, small⟩
      have zero : truncate (constant e) = 0 := by
        rw [truncate_constant, whole_neg _ small]
        cases e.sign <;> rfl
      have away : ¬ BelowLeast (runSize word size) (constant e) := by
        rintro ⟨power, -⟩
        rw [zero] at power
        have positive : (0 : Int) < 2 ^ (8 * runSize word size - 1) := by positivity
        omega
      obtain ⟨v, folded, value⟩ := float2int_fraction sizes.size minus small
      have equal := agrees v folded
      rw [value, run fits (Or.inr away), zero] at equal
      omega
    refine ⟨inside, fun below => ?_⟩
    have normal : e.mantissa.Normalized := by
      refine shaped.resolve_right fun empty => ?_
      have power := below.1
      have positive : (0 : Int) < 2 ^ (8 * runSize word size - 1) := by positivity
      rw [truncate_constant, empty, whole_zero] at power
      have zero : signed e.sign 0 = 0 := by cases e.sign <;> rfl
      omega
    obtain ⟨v, folded, value⟩ := float2int_normal sizes.size (by simp) normal inside fits
    have edge := @conversion_edge msl word size sizes src finite
    rw [same] at edge
    exact edge fits below ((agrees v folded).symm.trans value)
  · intro condition v folded
    have inside : uns = true ∨ ¬ (e.sign ∧ e.exp < 0) := condition.imp_right And.left
    have away := condition.imp_right And.right
    rw [run fits away, float2int_eq sizes.size shaped inside fits folded]

def minusFiveHalves : FltArith := ⟨true, 1, ⟨0xA0000000, 0⟩⟩

theorem minusFiveHalves_truncate : truncate (constant minusFiveHalves) = -2 := by
  have part : whole minusFiveHalves.mantissa (1 : Nat) = 2 := whole_eq _ (by decide)
  have sign : truncate (constant minusFiveHalves) = -whole minusFiveHalves.mantissa (1 : Nat) :=
    truncate_constant minusFiveHalves
  rw [sign, part]

theorem minusFiveHalves_value :
    (Source.single 0xC0200000).value true = constant minusFiveHalves := by
  have exponent : SINGLE.exponent 0xC0200000 = 128 := by decide
  have fraction : SINGLE.fraction 0xC0200000 = 2 ^ 21 := by decide
  have minus : SINGLE.negative 0xC0200000 := by decide
  have mantissa : minusFiveHalves.mantissa.value = 5 * 2 ^ 61 := by decide
  have sign : minusFiveHalves.sign = true := rfl
  have exp : minusFiveHalves.exp = 1 := rfl
  unfold Source.value SINGLE.value SINGLE.magnitude constant dyadic
  dsimp only
  rw [exponent, fraction, if_pos minus, mantissa, sign, exp]
  norm_num

/-- Minus two and a half, compiled and converted at run time. -/
theorem minusFiveHalves_agrees : conversion true 4 4 false (.single 0xC0200000) = -2 := by
  have fits : Fits false 4 (truncate (constant minusFiveHalves)) := by
    rw [minusFiveHalves_truncate]
    exact ⟨by decide, by decide⟩
  have away : ¬ BelowLeast 4 (constant minusFiveHalves) := by
    rintro ⟨power, -⟩
    rw [minusFiveHalves_truncate] at power
    exact absurd power (by decide)
  have sizes : Sizes 4 4 := ⟨Or.inr rfl, Or.inr (Or.inr rfl)⟩
  have shaped : Shaped minusFiveHalves := Or.inl (by decide)
  have finite : (Source.single 0xC0200000).Finite true := show SINGLE.exponent 0xC0200000 < 255 by decide
  have agrees := (float2int_agrees_iff sizes shaped finite minusFiveHalves_value fits).mpr
    (Or.inr ⟨by decide, away⟩)
  exact (agrees (-2) (by decide +kernel)).symm

def minusHalf : FltArith := ⟨true, -1, ⟨0x80000000, 0⟩⟩

theorem minusHalf_value : (Source.single 0xBF000000).value true = constant minusHalf := by
  have exponent : SINGLE.exponent 0xBF000000 = 126 := by decide
  have fraction : SINGLE.fraction 0xBF000000 = 0 := by decide
  have minus : SINGLE.negative 0xBF000000 := by decide
  have mantissa : minusHalf.mantissa.value = 2 ^ 63 := by decide
  have sign : minusHalf.sign = true := rfl
  have exp : minusHalf.exp = -1 := rfl
  unfold Source.value SINGLE.value SINGLE.magnitude constant dyadic
  dsimp only
  rw [exponent, fraction, if_pos minus, mantissa, sign, exp]
  norm_num

/-- Minus a half is minus one when it is compiled, and zero at run time. -/
theorem minusHalf_differs :
    ¬ ∀ (msl : Bool) (word size : Nat) (uns : Bool) (e : FltArith) (src : Source),
      Sizes word size → Shaped e → src.Finite msl → src.value msl = constant e →
        Fits uns size (truncate (constant e)) →
          ∀ v, float2int e size uns = some v → v.toInt = conversion msl word size uns src := by
  intro agrees
  have zero : truncate (constant minusHalf) = 0 := by
    rw [truncate_constant, whole_neg _ (by decide)]
    rfl
  have fits : Fits false 4 (truncate (constant minusHalf)) := by
    rw [zero]
    exact ⟨by decide, by decide⟩
  have equal := agrees true 4 4 false minusHalf (.single 0xBF000000)
    ⟨Or.inr rfl, Or.inr (Or.inr rfl)⟩ (Or.inl (by decide))
    (show SINGLE.exponent 0xBF000000 < 255 by decide) minusHalf_value fits (-1) (by decide +kernel)
  have result : conversion true 4 4 false (.single 0xBF000000) = 0 := by decide +kernel
  rw [result] at equal
  exact absurd equal (by decide)

end AckFormal.Cem
