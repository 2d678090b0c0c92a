import AckFormal.Fp.Convert
import AckFormal.Fp.Compact

/-!
# Conversion from integers and back

`cif8` and `cuf8` put the integer into the upper word of an extended mantissa,
normalise it and pack it.  No bit is lost on the way, so `cfi` and `cfu` find
it again.
-/

namespace AckFormal.Fp.IntegerConversions

open Flt.Mantissa Flt.Number Extended Fp.Compact Fp.Convert Lib.Truncation

inductive Pushed where
  | short (n : UInt16)
  | long (n : UInt32)

namespace Pushed

def iSrc : Pushed → Int32
  | short n => n.toInt16.toInt32
  | long n => n.toInt32

def exp : Pushed → Int
  | short _ => 15
  | long _ => 31

def aligned : Pushed → UInt32 → UInt32
  | short _, m1 => m1 <<< 16
  | long _, m1 => m1

end Pushed

def cif8 (msl : Bool) (src : Pushed) : DOUBLE × List Trap :=
  if src.iSrc = 0 then (⟨0, 0⟩, [])
  else
    let sign : UInt16 := if src.iSrc < 0 then 0x8000 else 0
    let m1 := (if src.iSrc < 0 then -src.iSrc else src.iSrc).toUInt32
    compact msl (nrmExt ⟨sign, src.exp, ⟨src.aligned m1, 0⟩⟩)

def cuf8 (msl : Bool) (src : Pushed) : DOUBLE × List Trap :=
  if src.iSrc = 0 then (⟨0, 0⟩, [])
  else compact msl (nrmExt ⟨0, src.exp, ⟨src.aligned src.iSrc.toUInt32, 0⟩⟩)

/-! ## Packing what needs no rounding -/

theorem compact_exact (msl : Bool) {f : EXTEND} (normal : f.mantissa.Normalized)
    (low : -1022 ≤ f.exp) (high : f.exp ≤ 1022) (grid : 2 ^ 11 ∣ f.mantissa.value) :
    (compact msl f).1.Finite msl ∧ (compact msl f).1.value msl = f.value ∧
      (compact msl f).2 = [] := by
  obtain ⟨finite, value, quiet⟩ := compact_value msl normal (by omega) (by omega)
    (fun last => by omega)
  obtain ⟨n, mantissa⟩ := grid
  have number : units f = n := by
    rw [(units_normal low).1, roundEven, mantissa, Nat.mul_mod_right,
      Nat.mul_div_cancel_left n (by decide)]
    rfl
  have unit : place f = f.exp - 63 + (11 : Nat) := by
    rw [(units_normal low).2]
    omega
  refine ⟨finite, ?_, quiet⟩
  rw [value, number, unit, EXTEND.value, EXTEND.unit, mantissa, zpow_add₀ (by norm_num), zpow_natCast]
  push_cast
  ring_nf

theorem packed_word (msl : Bool) (sign : UInt16) {exp : Int} {m1 : UInt32} (some : m1 ≠ 0)
    (low : 0 ≤ exp) (high : exp ≤ 31) :
    (compact msl (nrmExt ⟨sign, exp, ⟨m1, 0⟩⟩)).1.Finite msl ∧
      (compact msl (nrmExt ⟨sign, exp, ⟨m1, 0⟩⟩)).1.value msl =
        EXTEND.signed sign (m1.toNat * (2 : ℚ) ^ (exp - 31)) ∧
      (compact msl (nrmExt ⟨sign, exp, ⟨m1, 0⟩⟩)).2 = [] := by
  have nonzero : (⟨m1, 0⟩ : B64) ≠ FltMantissa.zero :=
    fun empty => some (congrArg FltMantissa.h32 empty)
  obtain ⟨s, bound, shifted, normal, kept, moved⟩ :=
    nrmExt_spec (e := ⟨sign, exp, ⟨m1, 0⟩⟩) nonzero (show -30000 ≤ exp by omega)
      (show exp ≤ 30000 by omega)
  dsimp only at moved kept
  have word : (⟨m1, 0⟩ : B64).value = m1.toNat * 2 ^ 32 := Nat.add_zero _
  rw [word] at shifted
  obtain ⟨finite, value, quiet⟩ := compact_exact msl normal (by omega) (by omega)
    ⟨m1.toNat * 2 ^ 21 * 2 ^ s, by rw [shifted]; ring⟩
  refine ⟨finite, ?_, quiet⟩
  have scale : (2 : ℚ) ^ (exp - 31) = 2 ^ (exp - s - 63) * 2 ^ (32 + s) := by
    have step : exp - 31 = exp - s - 63 + (32 + s : Nat) := by omega
    rw [step, zpow_add₀ (by norm_num), zpow_natCast]
  rw [value, EXTEND.value, EXTEND.unit, kept, moved, shifted, scale, pow_add]
  push_cast
  ring_nf

/-- The double denotes the integer, and packing it raises no trap. -/
structure Denotes (msl : Bool) (result : DOUBLE × List Trap) (v : Int) : Prop where
  finite : result.1.Finite msl
  value : result.1.value msl = v
  quiet : result.2 = []

theorem Denotes.ofZero (msl : Bool) : Denotes msl (⟨0, 0⟩, []) 0 where
  finite := by cases msl <;> decide
  value := by
    cases msl <;>
      simp [DOUBLE.value, DOUBLE.magnitude, DOUBLE.exponent, DOUBLE.fraction, DOUBLE.negative,
        DOUBLE.high, DOUBLE.low]
  quiet := rfl

def Pushed.bits : Pushed → UInt32 → Nat
  | short _, m1 => m1.toNat % 2 ^ 16
  | long _, m1 => m1.toNat

theorem aligned_value (src : Pushed) (m1 : UInt32) :
    ((src.aligned m1).toNat : ℚ) * 2 ^ (src.exp - 31) = src.bits m1 := by
  cases src with
  | short n =>
    have shifted : (m1 <<< 16).toNat = m1.toNat % 2 ^ 16 * 2 ^ 16 :=
      toNat_shiftLeft_ofNat m1 (n := 16) (by decide)
    have power : (2 : ℚ) ^ ((15 : Int) - 31) = 1 / 2 ^ 16 := by norm_num
    change ((m1 <<< 16).toNat : ℚ) * 2 ^ ((15 : Int) - 31) = (m1.toNat % 2 ^ 16 : Nat)
    rw [shifted, power, Nat.cast_mul, Nat.cast_pow, Nat.cast_ofNat]
    field_simp
  | long n =>
    change (m1.toNat : ℚ) * 2 ^ ((31 : Int) - 31) = _
    rw [sub_self, zpow_zero, mul_one]
    rfl

theorem packed_bits (msl : Bool) (sign : UInt16) (src : Pushed) {m1 : UInt32} (some : src.bits m1 ≠ 0)
    {v : Int} (value : EXTEND.signed sign (src.bits m1) = v) :
    Denotes msl (compact msl (nrmExt ⟨sign, src.exp, ⟨src.aligned m1, 0⟩⟩)) v := by
  have aligned := aligned_value src m1
  have nonzero : src.aligned m1 ≠ 0 := by
    intro empty
    rw [empty, UInt32.toNat_zero, Nat.cast_zero, zero_mul] at aligned
    exact some (Nat.cast_eq_zero.mp aligned.symm)
  obtain ⟨low, high⟩ : 0 ≤ src.exp ∧ src.exp ≤ 31 := by
    cases src with
    | short n => exact (by decide : (0 : Int) ≤ 15 ∧ (15 : Int) ≤ 31)
    | long n => exact (by decide : (0 : Int) ≤ 31 ∧ (31 : Int) ≤ 31)
  obtain ⟨finite, packed, quiet⟩ := packed_word msl sign nonzero low high
  rw [aligned, value] at packed
  exact ⟨finite, packed, quiet⟩

/-! ## Signed and unsigned words -/

theorem toNat_toUInt32 (i : Int32) : (i.toUInt32.toNat : Int) = i.toInt % 2 ^ 32 :=
  (toInt_emod i.toUInt32).symm

theorem int32_range (i : Int32) : -2 ^ 31 ≤ i.toInt ∧ i.toInt < 2 ^ 31 :=
  ⟨i.le_toInt, i.toInt_lt⟩

/-- The magnitude `cif8` stores, also of the most negative integer. -/
theorem magnitude_word (i : Int32) :
    (if i < 0 then -i else i).toUInt32.toNat = i.toInt.natAbs := by
  obtain ⟨low, high⟩ := int32_range i
  have sign : i < 0 ↔ i.toInt < 0 := Int32.lt_iff_toInt_lt
  split
  next negative =>
    have below := sign.mp negative
    have word := toNat_toUInt32 (-i)
    rw [Int32.toInt_neg, Int.bmod_def] at word
    split at word <;> omega
  next positive =>
    have above := mt sign.mpr positive
    have word := toNat_toUInt32 i
    omega

theorem iSrc_short (n : UInt16) : (Pushed.short n).iSrc.toInt = n.toInt16.toInt := Int16.toInt_toInt32 _

theorem int16_range (n : Int16) : -2 ^ 15 ≤ n.toInt ∧ n.toInt < 2 ^ 15 :=
  ⟨n.le_toInt, n.toInt_lt⟩

theorem iSrc_eq_zero {i : Int32} : i = 0 ↔ i.toInt = 0 := Int32.toInt_inj.symm

/-- An integer is converted exactly. -/
theorem cif8_denotes (msl : Bool) (src : Pushed) : Denotes msl (cif8 msl src) src.iSrc.toInt := by
  unfold cif8
  split
  next zero =>
    rw [zero]
    exact Denotes.ofZero msl
  next some =>
    rw [iSrc_eq_zero] at some
    have word := magnitude_word src.iSrc
    have sign : src.iSrc < 0 ↔ src.iSrc.toInt < 0 := Int32.lt_iff_toInt_lt
    have bits : src.bits (if src.iSrc < 0 then -src.iSrc else src.iSrc).toUInt32 =
        src.iSrc.toInt.natAbs := by
      cases src with
      | short n =>
        have range := int16_range n.toInt16
        rw [← iSrc_short] at range
        change _ % 2 ^ 16 = _
        omega
      | long n => exact word
    refine packed_bits msl _ src (by rw [bits]; omega) ?_
    rw [bits, EXTEND.signed]
    by_cases negative : src.iSrc < 0
    · have below := sign.mp negative
      rw [if_pos negative, if_neg (by decide)]
      have magnitude : (src.iSrc.toInt : ℚ) = -(src.iSrc.toInt.natAbs : Int) := by
        rw [← Int.cast_neg]
        congr 1
        omega
      rw [magnitude, Int.cast_natCast]
    · have above := mt sign.mpr negative
      rw [if_neg negative, if_pos rfl]
      have magnitude : src.iSrc.toInt = (src.iSrc.toInt.natAbs : Int) := by omega
      rw [magnitude, Int.natAbs_natCast, Int.cast_natCast]

def Pushed.unsigned : Pushed → Nat
  | short n => n.toNat
  | long n => n.toNat

theorem bits_unsigned (src : Pushed) : src.bits src.iSrc.toUInt32 = src.unsigned := by
  cases src with
  | short n =>
    have word := toNat_toUInt32 (Pushed.short n).iSrc
    rw [iSrc_short] at word
    have range := n.toNat_lt
    have half : n.toInt16.toInt % 2 ^ 16 = n.toNat := by
      change n.toBitVec.toInt % 2 ^ 16 = _
      rw [BitVec.toInt_eq_toNat_bmod]
      change Int.bmod n.toNat (2 ^ 16) % 2 ^ 16 = n.toNat
      rw [Int.bmod_def]
      split <;> omega
    change (Pushed.short n).iSrc.toUInt32.toNat % 2 ^ 16 = n.toNat
    omega
  | long n => rfl

theorem cuf8_denotes (msl : Bool) (src : Pushed) : Denotes msl (cuf8 msl src) src.unsigned := by
  have bits := bits_unsigned src
  unfold cuf8
  split
  next zero =>
    have none : src.unsigned = 0 := by
      rw [← bits, zero]
      cases src <;> rfl
    rw [none]
    exact Denotes.ofZero msl
  next some =>
    refine packed_bits msl 0 src ?_ ?_
    · rw [bits]
      intro none
      refine some ?_
      cases src with
      | short n =>
        have word : n = 0 := UInt16.toNat_inj.mp none
        rw [word]
        rfl
      | long n =>
        have word : n = 0 := UInt32.toNat_inj.mp none
        rw [word]
        rfl
    · rw [bits, EXTEND.signed, if_pos rfl, Int.cast_natCast]

/-! ## The way back -/

/-- A zero is unpacked with an exponent that is not positive. -/
theorem extend_zero_exp {msl : Bool} {x : DOUBLE} (zero : x.value msl = 0) :
    (extend msl x).exp ≤ 0 := by
  have magnitude : x.magnitude msl = 0 := by
    unfold DOUBLE.value at zero
    split at zero
    next => exact neg_eq_zero.mp zero
    next => exact zero
  have subnormal : x.exponent msl = 0 := by
    by_contra normal
    rw [DOUBLE.magnitude, if_neg normal] at magnitude
    have positive : (0 : ℚ) < (2 ^ 52 + x.fraction msl : Nat) * 2 ^ ((x.exponent msl : Int) - 1075) := by
      positivity
    exact positive.ne' magnitude
  by_cases empty : x.high msl = 0 ∧ x.low msl = 0
  · rw [extend_zero empty.1 empty.2]
  · have none : x.fraction msl = 0 := by
      rw [DOUBLE.magnitude, if_pos subnormal] at magnitude
      have power : (2 : ℚ) ^ (-1074 : Int) ≠ 0 := zpow_ne_zero _ (by norm_num)
      exact Nat.cast_eq_zero.mp ((mul_eq_zero.mp magnitude).resolve_right power)
    have mantissa := leading_clear (x.high msl) (x.low msl)
    change _ = x.fraction msl * 2 ^ 11 at mantissa
    rw [none, Nat.zero_mul] at mantissa
    have zero := FltMantissa.value_eq_zero.mp mantissa
    rw [extend_subnormal subnormal empty, zero, nrmExt_zero rfl]
    dsimp only
    decide

theorem truncate_int (n : Int) : truncate n = n := by
  unfold truncate
  split
  next => exact Int.ceil_intCast n
  next => exact Int.floor_intCast n

/-- In range the integer part fits, and the number is not beyond the least one. -/
theorem truncate_fits {ds : Nat} {v : ℚ} (low : -2 ^ (8 * ds - 1) ≤ v) (high : v < 2 ^ (8 * ds - 1)) :
    Fits false ds (truncate v) ∧ ¬ BelowLeast ds v := by
  have bottom : ((-2 ^ (8 * ds - 1) : Int) : ℚ) ≤ v := by
    push_cast
    exact low
  have top : v < ((2 ^ (8 * ds - 1) : Int) : ℚ) := by
    push_cast
    exact high
  have positive : (0 : Int) < 2 ^ (8 * ds - 1) := by positivity
  constructor
  · change -2 ^ (8 * ds - 1) ≤ truncate v ∧ truncate v < 2 ^ (8 * ds - 1)
    unfold truncate
    split
    next negative =>
      have most : ⌈v⌉ ≤ 0 := Int.ceil_le.mpr (by exact_mod_cast negative.le)
      exact ⟨Int.cast_le.mp (bottom.trans (Int.le_ceil v)), by omega⟩
    next =>
      exact ⟨Int.le_floor.mpr bottom, Int.floor_lt.mpr top⟩
  · rintro ⟨least, differs⟩
    have negative : v < 0 := by
      by_contra plus
      rw [truncate, if_neg plus] at least
      have floor : 0 ≤ ⌊v⌋ := Int.floor_nonneg.mpr (not_lt.mp plus)
      omega
    rw [truncate, if_pos negative] at least
    have above : v ≤ ((-2 ^ (8 * ds - 1) : Int) : ℚ) := Int.ceil_le.mp least.le
    push_cast at above
    exact differs (le_antisymm above low)

theorem cfi_truncates (msl : Bool) {ds : Nat} (sizes : ds = 2 ∨ ds = 4) {x : DOUBLE}
    (finite : x.Finite msl) (low : -2 ^ (8 * ds - 1) ≤ x.value msl)
    (high : x.value msl < 2 ^ (8 * ds - 1)) :
    (cfi msl ds (.double x)).1.toInt = truncate (x.value msl) ∧
      (cfi msl ds (.double x)).2 = false := by
  have unpacked := extend_unpacked msl finite
  obtain ⟨fits, inside⟩ := truncate_fits low high
  exact ⟨cfiExt_eq sizes unpacked fits inside,
    cfiExt_quiet (by omega) unpacked fits inside extend_zero_exp⟩

def Pushed.size : Pushed → Nat
  | short _ => 2
  | long _ => 4

theorem size_cases (src : Pushed) : src.size = 2 ∨ src.size = 4 := by
  cases src with
  | short n => exact Or.inl rfl
  | long n => exact Or.inr rfl

theorem iSrc_range (src : Pushed) :
    -2 ^ (8 * src.size - 1) ≤ src.iSrc.toInt ∧ src.iSrc.toInt < 2 ^ (8 * src.size - 1) := by
  cases src with
  | short n =>
    rw [iSrc_short]
    exact int16_range n.toInt16
  | long n => exact int32_range n.toInt32

theorem unsigned_lt (src : Pushed) : src.unsigned < 2 ^ (8 * src.size) := by
  cases src with
  | short n => exact n.toNat_lt
  | long n => exact n.toNat_lt

theorem cfi_cif8 (msl : Bool) (src : Pushed) :
    cfi msl src.size (.double (cif8 msl src).1) = (src.iSrc, false) := by
  obtain ⟨finite, value, -⟩ := cif8_denotes msl src
  obtain ⟨low, high⟩ := iSrc_range src
  obtain ⟨result, quiet⟩ := cfi_truncates msl (size_cases src) finite
    (by rw [value]; exact_mod_cast low) (by rw [value]; exact_mod_cast high)
  rw [value, truncate_int] at result
  exact Prod.ext (Int32.toInt_inj.mp result) quiet

theorem cfu_cuf8 (msl : Bool) (src : Pushed) :
    (cfu msl src.size (.double (cuf8 msl src).1)).1.toUInt32.toNat = src.unsigned ∧
      (cfu msl src.size (.double (cuf8 msl src).1)).2 = false := by
  obtain ⟨finite, value, -⟩ := cuf8_denotes msl src
  have unpacked := extend_unpacked msl finite
  have bound := unsigned_lt src
  have truncated : truncate ((cuf8 msl src).1.value msl) = src.unsigned := by
    rw [value, truncate_int]
  have fits : Fits true src.size (truncate ((cuf8 msl src).1.value msl)) := by
    rw [truncated]
    exact ⟨Int.natCast_nonneg _, by exact_mod_cast bound⟩
  obtain ⟨word, quiet⟩ := cfuExt_word (size_cases src) unpacked fits
  rw [truncated] at word
  exact ⟨Int.ofNat_inj.mp word, quiet extend_zero_exp⟩

/-- The conversions to doubles lose nothing, and those back truncate. -/
theorem integer_conversions (msl : Bool) :
    (∀ n : Int32, cfi msl 4 (.double (cif8 msl (.long n.toUInt32)).1) = (n, false)) ∧
    (∀ n : Int16, cfi msl 2 (.double (cif8 msl (.short n.toUInt16)).1) = (n.toInt32, false)) ∧
    (∀ n : UInt32, cfu msl 4 (.double (cuf8 msl (.long n)).1) = (n.toInt32, false)) ∧
    (∀ n : UInt16, cfu msl 2 (.double (cuf8 msl (.short n)).1) = (n.toUInt32.toInt32, false)) ∧
    (∀ src, (cif8 msl src).2 = [] ∧ (cuf8 msl src).2 = []) ∧
    (∀ ds x, ds = 2 ∨ ds = 4 → x.Finite msl → -2 ^ (8 * ds - 1) ≤ x.value msl →
      x.value msl < 2 ^ (8 * ds - 1) →
      (cfi msl ds (.double x)).1.toInt = truncate (x.value msl) ∧
        (cfi msl ds (.double x)).2 = false) := by
  refine ⟨fun n => cfi_cif8 msl (.long n.toUInt32), fun n => cfi_cif8 msl (.short n.toUInt16),
    fun n => ?_, fun n => ?_, fun src => ⟨(cif8_denotes msl src).quiet, (cuf8_denotes msl src).quiet⟩,
    fun ds x sizes finite low high => cfi_truncates msl sizes finite low high⟩
  · obtain ⟨word, quiet⟩ := cfu_cuf8 msl (.long n)
    have same : (cfu msl 4 (.double (cuf8 msl (.long n)).1)).1.toUInt32 = n := UInt32.toNat_inj.mp word
    exact Prod.ext (congrArg UInt32.toInt32 same) quiet
  · obtain ⟨word, quiet⟩ := cfu_cuf8 msl (.short n)
    have same : (cfu msl 2 (.double (cuf8 msl (.short n)).1)).1.toUInt32 = n.toUInt32 :=
      UInt32.toNat_inj.mp word
    exact Prod.ext (congrArg UInt32.toInt32 same) quiet

/-- The least integer, as a double. -/
theorem integer_conversions_least :
    (cfi true 4 (.double ⟨0xC1E00000, 0⟩)).1.toInt =
        truncate ((⟨0xC1E00000, 0⟩ : DOUBLE).value true) ∧
      (cfi true 4 (.double ⟨0xC1E00000, 0⟩)).2 = false := by
  have value : (⟨0xC1E00000, 0⟩ : DOUBLE).value true = -2 ^ (8 * 4 - 1) := by
    have exponent : (⟨0xC1E00000, 0⟩ : DOUBLE).exponent true = 1054 := by decide
    have fraction : (⟨0xC1E00000, 0⟩ : DOUBLE).fraction true = 0 := by decide
    rw [DOUBLE.value, if_pos (by decide), DOUBLE.magnitude, exponent, fraction]
    norm_num
  exact (integer_conversions true).2.2.2.2.2 4 ⟨0xC1E00000, 0⟩ (Or.inr rfl) (by decide)
    (by rw [value]) (by rw [value]; norm_num)

end AckFormal.Fp.IntegerConversions
