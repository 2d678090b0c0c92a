import AckFormal.Flt.Comparison

/-!
# Integers as numbers and back

`flt_arith2flt` is exact.  `flt_flt2arith` shifts the mantissa until its last
bit is the unit, and then means to put the two words of it together; the shift
of the high word leaves its 32 bits, so that only the low word arrives.
-/

namespace AckFormal.Flt.Integers

open Mantissa Number FltArith Conversions Canonical Sums Comparison Lib.Truncation

def integer (n : Int64) (uns : Bool) : ℤ := if uns then n.toUInt64.toNat else n.toInt

structure RoundTrip (n : Int64) (uns : Bool) (status : FltStatus) : Prop where
  canonical : (fltArith2flt n uns status).1.Canonical
  value : value (fltArith2flt n uns status).1 = integer n uns
  back : (fltFlt2arith (fltArith2flt n uns status).1 uns).1 = n
  quiet : (fltFlt2arith (fltArith2flt n uns status).1 uns).2.2 ≠ .ovfl

/-! ## From an integer -/

/-- A magnitude is normalized with its sign. -/
theorem magnitude2flt_spec (sign : Bool) (n : Int64) (status : FltStatus) :
    Sums.value (magnitude2flt sign n status).1 = signed sign n.toUInt64.toNat ∧
      (n ≠ 0 → (magnitude2flt sign n status).1.sign = sign ∧
        (magnitude2flt sign n status).1.mantissa.Normalized ∧
        ∃ s ≤ 63, (magnitude2flt sign n status).1.exp = 63 - (s : Nat) ∧
          (magnitude2flt sign n status).1.mantissa.value = n.toUInt64.toNat * 2 ^ s) := by
  have words : _ = n.toUInt64.toNat := arithWords_value n.toBitVec
  unfold magnitude2flt
  generalize (⟨UInt32.ofBitVec ((n.toBitVec.sshiftRight 32).setWidth 32),
    UInt32.ofBitVec (n.toBitVec.setWidth 32)⟩ : FltMantissa) = m at words ⊢
  by_cases none : n = 0
  · have empty : m = FltMantissa.zero := by
      refine FltMantissa.value_eq_zero.mp ?_
      rw [words, none]
      rfl
    refine ⟨?_, fun some => absurd none some⟩
    rw [if_pos none, value_of_zero empty, none]
    cases sign <;> rfl
  · have someBit : m ≠ FltMantissa.zero := by
      refine mt FltMantissa.value_eq_zero.mpr ?_
      rw [words]
      intro empty
      exact none (Int64.toBitVec_inj.mp (BitVec.eq_of_toNat_eq empty))
    rw [if_neg none]
    have low : (-32000 : Int) ≤ 63 := by decide
    have high : (63 : Int) ≤ 32000 := by decide
    obtain ⟨s, most, mantissa, normal, signed', exponent⟩ := @fltNrm_spec ⟨sign, 63, m⟩ someBit
    refine ⟨?_, fun _ => ⟨signed', normal, s, most, ?_, ?_⟩⟩
    · rw [@value_fltNrm ⟨sign, 63, m⟩ low high, value_mk, words]
      unfold unit
      rw [sub_self, zpow_zero, mul_one]
    · rw [exponent]
      dsimp only
      split
      next zero => rw [zero]; rfl
      next => exact toShort_of_range (by omega) (by omega)
    · rw [mantissa, words]

theorem toUInt64_toNat (x : Int64) : (x.toUInt64.toNat : Int) = x.toInt % 2 ^ 64 := by
  change (x.toBitVec.toNat : Int) = x.toBitVec.toInt % 2 ^ 64
  rw [BitVec.toInt_eq_toNat_bmod, Int.bmod_def]
  split <;> omega

structure Converted (n : Int64) (uns : Bool) (e : FltArith) (sign : Bool) (size : Nat) : Prop where
  integer : integer n uns = signed sign size
  value : Sums.value e = signed sign size
  unsigned : uns = true → sign = false
  within : uns = false → size ≤ 2 ^ 63 ∧ (sign = false → size < 2 ^ 63)
  words : n ≠ 0 → e.sign = sign ∧ e.mantissa.Normalized ∧
    ∃ s ≤ 63, e.exp = 63 - (s : Nat) ∧ e.mantissa.value = size * 2 ^ s

/-- Every number is converted exactly. -/
theorem fltArith2flt_converted (n : Int64) (uns : Bool) (status : FltStatus) :
    ∃ sign size, Converted n uns (fltArith2flt n uns status).1 sign size := by
  have word := toUInt64_toNat n
  have low := n.le_toInt
  have high := n.toInt_lt
  unfold fltArith2flt
  by_cases negative : !uns ∧ n < 0
  · obtain ⟨isSigned, below⟩ := negative
    rw [Int64.lt_iff_toInt_lt, Int64.toInt_zero] at below
    have plain : uns = false := by simpa using isSigned
    have size : ((-n).toUInt64.toNat : Int) = -n.toInt := by
      rw [toUInt64_toNat, Int64.toInt_neg, Int.bmod_def]
      split <;> omega
    obtain ⟨value, words⟩ := magnitude2flt_spec true (-n) status
    rw [if_pos ⟨isSigned, by rwa [Int64.lt_iff_toInt_lt, Int64.toInt_zero]⟩]
    refine ⟨true, (-n).toUInt64.toNat, ?_, value, ?_, fun _ => ?_, fun some => words ?_⟩
    · rw [integer, plain, if_neg (by decide), signed_true, size, neg_neg]
    · rw [plain]
      exact fun false => absurd false (by decide)
    · exact ⟨by omega, fun false => absurd false (by decide)⟩
    · exact fun none => some (by simpa using congrArg Neg.neg none)
  · obtain ⟨value, words⟩ := magnitude2flt_spec false n status
    rw [if_neg negative]
    refine ⟨false, n.toUInt64.toNat, ?_, value, fun _ => rfl, fun plain => ?_, words⟩
    · unfold integer
      cases uns with
      | true => rfl
      | false =>
        have nonneg : ¬ n < 0 := fun below => negative ⟨rfl, below⟩
        rw [Int64.lt_iff_toInt_lt, Int64.toInt_zero] at nonneg
        rw [if_neg (by decide), signed_false]
        omega
    · have nonneg : ¬ n < 0 := fun below => negative ⟨by rw [plain]; rfl, below⟩
      rw [Int64.lt_iff_toInt_lt, Int64.toInt_zero] at nonneg
      exact ⟨by omega, fun _ => by omega⟩

/-! ## Back to an integer -/

theorem high_lost (a : UInt32) : (a <<< 16) <<< 16 = 0 := by
  refine UInt32.toNat_inj.mp ?_
  rw [show ((a <<< 16) <<< 16).toNat = _ from toNat_shiftLeft_ofNat (n := 16) _ (by decide),
    show (a <<< 16).toNat = _ from toNat_shiftLeft_ofNat (n := 16) _ (by decide)]
  change _ = 0
  omega

variable {e : FltArith} {v : ℚ}

theorem fltFlt2arith_small {uns : Bool} (plain : ¬ (e.sign ∧ uns)) (small : e.exp < 0) :
    fltFlt2arith e uns = (Int64.ofInt (-(if e.sign then 1 else 0)), e, .ok) := by
  unfold fltFlt2arith
  rw [if_neg plain]
  exact if_pos small

def FitsArith (e : FltArith) (uns : Bool) : Prop :=
  e.exp ≤ 62 + (if uns then 1 else 0) ∨
    (e.sign ∧ e.exp = 63 ∧ e.m2 = 0 ∧ e.m1 = 0x80000000)

/-- The low word of the integer part arrives, with its sign. -/
theorem fltFlt2arith_word {uns : Bool} {n : Nat} (plain : ¬ (e.sign ∧ uns))
    (exp : e.exp = 63 - (n : Nat)) (most : n ≤ 63) (fits : FitsArith e uns) :
    ∃ a : Int64, fltFlt2arith e uns = (a, e, .ok) ∧
      a.toInt = signed e.sign (e.mantissa.value / 2 ^ n % 2 ^ 32 : Nat) := by
  have large : ¬ e.exp < 0 := by omega
  have shifted := fltB64Sft_right e.mantissa most
  have count : (n : Int) = 63 - e.exp := by omega
  rw [count] at shifted
  generalize result : fltB64Sft e.mantissa (63 - e.exp) = m at shifted
  have bound := m.l32.toNat_lt
  have low : m.l32.toNat = e.mantissa.value / 2 ^ n % 2 ^ 32 := by
    rw [← shifted]
    unfold FltMantissa.value
    omega
  have plus := Int64.toInt_ofNat_of_lt (lt_trans bound (by decide : 2 ^ 32 < 2 ^ 63))
  have minus := Int64.toInt_neg_ofNat_of_le (lt_trans bound (by decide : 2 ^ 32 < 2 ^ 63)).le
  unfold fltFlt2arith
  dsimp only
  rw [if_neg plain, if_neg large]
  refine ⟨if e.sign then -Int64.ofNat m.l32.toNat else Int64.ofNat m.l32.toNat, ?_, ?_⟩
  · by_cases far : e.exp > 62 + (if uns then 1 else 0)
    · rw [if_pos far, if_pos (fits.resolve_left (not_le.mpr far))]
      rw [result, high_lost, UInt32.or_zero]
    · rw [if_neg far]
      rw [result, high_lost, UInt32.or_zero]
  · rw [← low]
    cases e.sign with
    | false => exact plus
    | true => exact minus

namespace Converted

variable {n : Int64} {uns : Bool} {e : FltArith} {sign : Bool} {size : Nat}

variable (converted : Converted n uns e sign size)
include converted

/-- A converted integer passes the test of `flt_flt2arith`. -/
theorem fits (some : n ≠ 0) : FitsArith e uns := by
  obtain ⟨isSign, normal, s, most, exp, mantissa⟩ := converted.words some
  cases uns with
  | true => exact Or.inl (by rw [if_pos rfl]; omega)
  | false =>
    by_cases top : s = 0
    · obtain ⟨le, less⟩ := converted.within rfl
      unfold FltMantissa.Normalized at normal
      rw [top, pow_zero, mul_one] at mantissa
      have full : size = 2 ^ 63 := by omega
      have negative : sign = true := by
        by_contra plus
        have small := less (by simpa using plus)
        omega
      have words : e.mantissa = ⟨0x80000000, 0⟩ :=
        FltMantissa.value_inj (mantissa.trans full)
      refine Or.inr ⟨isSign.trans negative, by rw [exp, top]; rfl, ?_, ?_⟩
      · rw [FltArith.m2, words]
      · rw [FltArith.m1, words]
    · exact Or.inl (by rw [if_neg (by decide)]; omega)

theorem back (some : n ≠ 0) :
    ∃ a : Int64, fltFlt2arith e uns = (a, e, .ok) ∧ a.toInt = signed sign (size % 2 ^ 32 : Nat) := by
  obtain ⟨isSign, -, s, most, exp, mantissa⟩ := converted.words some
  have plain : ¬ (e.sign ∧ uns) := by
    rintro ⟨minus, unsigned⟩
    rw [isSign, converted.unsigned unsigned] at minus
    exact absurd minus (by decide)
  obtain ⟨a, result, low⟩ := fltFlt2arith_word plain exp most (converted.fits some)
  rw [mantissa, Nat.mul_div_cancel _ (Nat.two_pow_pos s), isSign] at low
  exact ⟨a, result, low⟩

/-- It is the integer exactly when the high word is empty. -/
theorem back_iff {a : Int64}
    (low : a.toInt = signed sign (size % 2 ^ 32 : Nat)) : a = n ↔ size < 2 ^ 32 := by
  have whole := converted.integer
  have word := toUInt64_toNat n
  have above := n.le_toInt
  have below := n.toInt_lt
  unfold Integers.integer at whole
  rw [← Int64.toInt_inj, low]
  cases uns with
  | true =>
    rw [if_pos rfl, converted.unsigned rfl, signed_false] at whole
    rw [converted.unsigned rfl, signed_false]
    omega
  | false =>
    rw [if_neg (by decide)] at whole
    rw [whole]
    cases sign <;> simp only [signed_true, signed_false] <;> omega

end Converted

theorem fltArith2flt_zero (uns : Bool) (status : FltStatus) :
    (fltArith2flt 0 uns status).1 = zero := by
  cases uns <;> rfl

/-- The round trip works exactly for the integers of one word. -/
theorem roundTrip_iff (n : Int64) (uns : Bool) (status : FltStatus) :
    RoundTrip n uns status ↔ |integer n uns| < 2 ^ 32 := by
  obtain ⟨sign, size, converted⟩ := fltArith2flt_converted n uns status
  have canonical := fltArith2flt_canonical n uns status
  have exact : Sums.value (fltArith2flt n uns status).1 = integer n uns :=
    converted.value.trans (congrArg Int.cast converted.integer.symm)
  by_cases none : n = 0
  · subst none
    refine iff_of_true ⟨canonical, exact, ?_, ?_⟩ ?_
    · rw [fltArith2flt_zero, fltFlt2arith_zero]
    · rw [fltArith2flt_zero, fltFlt2arith_zero]
      decide
    · cases uns <;> decide
  · obtain ⟨a, result, low⟩ := converted.back none
    rw [converted.integer, abs_signed]
    have iff := converted.back_iff low
    constructor
    · intro trip
      have same := trip.back
      rw [result] at same
      exact_mod_cast iff.mp same
    · intro small
      refine ⟨canonical, exact, ?_, ?_⟩
      · rw [result]
        exact iff.mpr (by exact_mod_cast small)
      · rw [result]
        exact nofun

/-- The first integer of two words comes back as zero. -/
theorem two_words_lost : ¬ ∀ n uns status, RoundTrip n uns status := by
  intro all
  have back := (all (2 ^ 32) false .ok).back
  revert back
  decide

/-! ## Which integer it is -/

/-- The integer `flt_flt2arith` gives for a number of less than 31 bits. -/
def chopped (v : ℚ) : ℤ := if -1 < v ∧ v < 0 then -1 else truncate v

theorem chopped_of_nonneg (nonneg : 0 ≤ v) : chopped v = ⌊v⌋ := by
  unfold chopped truncate
  rw [if_neg fun both => nonneg.not_gt both.2, if_neg nonneg.not_gt]

theorem chopped_of_le (low : v ≤ -1) : chopped v = ⌈v⌉ := by
  unfold chopped truncate
  rw [if_neg fun both => low.not_gt both.1, if_pos (by linarith)]

theorem chopped_of_between (low : -1 < v) (high : v < 0) : chopped v = -1 :=
  if_pos ⟨low, high⟩

/-- It is the floor unless the number is a negative fraction below minus one. -/
theorem chopped_eq_floor_iff (v : ℚ) :
    chopped v = ⌊v⌋ ↔ 0 ≤ v ∨ |v| < 1 ∨ ∃ n : ℤ, v = n := by
  rcases le_or_gt 0 v with nonneg | negative
  · exact iff_of_true (chopped_of_nonneg nonneg) (Or.inl nonneg)
  · rcases lt_or_ge (-1) v with above | low
    · refine iff_of_true ?_ (Or.inr (Or.inl (abs_lt.mpr ⟨above, by linarith⟩)))
      rw [chopped_of_between above negative]
      symm
      rw [Int.floor_eq_iff]
      push_cast
      exact ⟨above.le, by linarith⟩
    · rw [chopped_of_le low]
      constructor
      · intro same
        refine Or.inr (Or.inr ⟨⌊v⌋, le_antisymm ?_ (Int.floor_le v)⟩)
        rw [← same]
        exact Int.le_ceil v
      · rintro (nonneg | small | ⟨n, rfl⟩)
        · exact absurd nonneg (not_le.mpr negative)
        · rw [abs_of_neg negative] at small
          linarith
        · rw [Int.ceil_intCast, Int.floor_intCast]

theorem chopped_mono {w : ℚ} (le : v ≤ w) : chopped v ≤ chopped w := by
  rcases le_or_gt 0 v with nonneg | negative
  · rw [chopped_of_nonneg nonneg, chopped_of_nonneg (nonneg.trans le)]
    exact Int.floor_le_floor le
  · have most : chopped v ≤ -1 := by
      rcases lt_or_ge (-1) v with above | low
      · exact (chopped_of_between above negative).le
      · rw [chopped_of_le low, Int.ceil_le]
        exact_mod_cast low
    rcases le_or_gt 0 w with nonneg | negative'
    · rw [chopped_of_nonneg nonneg]
      exact most.trans (by linarith [Int.floor_nonneg.mpr nonneg])
    · rcases lt_or_ge (-1) w with above | low
      · rw [chopped_of_between above negative']
        exact most
      · rw [chopped_of_le low, chopped_of_le (le.trans low)]
        exact Int.ceil_le_ceil le

theorem exp_lt_of_small (normal : e.mantissa.Normalized) (small : |Sums.value e| < 2 ^ 31) :
    e.exp < 31 := by
  have below : (2 : ℚ) ^ e.exp < 2 ^ (31 : Int) :=
    lt_of_le_of_lt (le_abs_value normal) (by exact_mod_cast small)
  exact (zpow_lt_zpow_iff_right₀ (by norm_num)).mp below

theorem chopped_below (normal : e.mantissa.Normalized) (low : e.exp < 0) :
    chopped (Sums.value e) = -(if e.sign then 1 else 0) := by
  have size : |Sums.value e| < 1 :=
    (abs_value_lt e).trans_le (zpow_le_one_of_nonpos₀ (by norm_num) (by omega))
  obtain ⟨above, below⟩ := abs_lt.mp size
  have some : e.mantissa ≠ FltMantissa.zero := fun empty => zero_not_normalized (empty ▸ normal)
  cases sign : e.sign with
  | false =>
    have positive := (value_pos some).mpr sign
    rw [chopped_of_nonneg positive.le]
    exact Int.floor_eq_zero_iff.mpr ⟨positive.le, below⟩
  | true => exact chopped_of_between above ((value_neg some).mpr sign)

theorem chopped_above {n : Nat} (normal : e.mantissa.Normalized) (low : ¬ e.exp < 0)
    (exp : e.exp = 63 - (n : Nat)) :
    chopped (Sums.value e) = signed e.sign (e.mantissa.value / 2 ^ n : Nat) := by
  have size : 1 ≤ |Sums.value e| :=
    (one_le_zpow₀ (by norm_num) (not_lt.mp low)).trans (le_abs_value normal)
  have outside : ¬ (-1 < Sums.value e ∧ Sums.value e < 0) := fun both =>
    size.not_gt (abs_lt.mpr ⟨both.1, both.2.trans one_pos⟩)
  unfold chopped
  rw [if_neg outside, Sums.value, truncate_dyadic, show e.exp - 63 = -(n : Int) by omega,
    floor_right]

theorem fltFlt2arith_chopped (canonical : e.Canonical) (small : |Sums.value e| < 2 ^ 31) :
    (fltFlt2arith e false).1.toInt = chopped (Sums.value e) := by
  rcases canonical with rfl | ⟨normal, -⟩
  · rw [fltFlt2arith_zero, value_of_zero rfl]
    rfl
  · have high := exp_lt_of_small normal small
    have plain : ¬ (e.sign ∧ false = true) := fun both => absurd both.2 (by decide)
    by_cases low : e.exp < 0
    · rw [fltFlt2arith_small plain low, chopped_below normal low]
      cases e.sign <;> rfl
    · obtain ⟨n, exp⟩ : ∃ n : Nat, e.exp = 63 - (n : Nat) := ⟨(63 - e.exp).toNat, by omega⟩
      have fits : FitsArith e false := Or.inl (by rw [if_neg (by decide)]; omega)
      have word : e.mantissa.value / 2 ^ n < 2 ^ 32 := by
        have bound := e.mantissa.value_lt
        have factor : 2 ^ 32 ≤ 2 ^ n := Nat.pow_le_pow_right (by decide) (by omega)
        rw [Nat.div_lt_iff_lt_mul (Nat.two_pow_pos n)]
        exact lt_of_lt_of_le bound (Nat.mul_le_mul_left (2 ^ 32) factor)
      obtain ⟨a, result, value⟩ := fltFlt2arith_word plain exp (by omega) fits
      rw [result, value, Nat.mod_eq_of_lt word, chopped_above normal low exp]

/-- `flt_flt2arith` gives the floor exactly for the numbers that are not
negative, below one in size, or integers; it is monotone all the same. -/
theorem fltFlt2arith_floor_iff (e : FltArith) (canonical : e.Canonical)
    (small : |Sums.value e| < 2 ^ 31) :
    ((fltFlt2arith e false).1.toInt = ⌊Sums.value e⌋ ↔
      0 ≤ Sums.value e ∨ |Sums.value e| < 1 ∨ ∃ n : ℤ, Sums.value e = n) ∧
    ∀ e' : FltArith, e'.Canonical → |Sums.value e'| < 2 ^ 31 → Sums.value e ≤ Sums.value e' →
      (fltFlt2arith e false).1.toInt ≤ (fltFlt2arith e' false).1.toInt := by
  rw [fltFlt2arith_chopped canonical small]
  refine ⟨chopped_eq_floor_iff _, fun e' canonical' small' le => ?_⟩
  rw [fltFlt2arith_chopped canonical' small']
  exact chopped_mono le

def minusOneAndHalf : FltArith := ⟨true, 0, ⟨0xC0000000, 0⟩⟩

theorem value_minusOneAndHalf : Sums.value minusOneAndHalf = -(3 / 2) := by
  have mantissa : (⟨0xC0000000, 0⟩ : FltMantissa).value = 3 * 2 ^ 62 := by decide
  unfold Sums.value minusOneAndHalf
  rw [mantissa]
  norm_num [dyadic]

theorem minusOneAndHalf_floor :
    ((fltFlt2arith minusOneAndHalf false).1.toInt = ⌊Sums.value minusOneAndHalf⌋ ↔
      0 ≤ Sums.value minusOneAndHalf ∨ |Sums.value minusOneAndHalf| < 1 ∨
        ∃ n : ℤ, Sums.value minusOneAndHalf = n) ∧
    ∀ e' : FltArith, e'.Canonical → |Sums.value e'| < 2 ^ 31 →
      Sums.value minusOneAndHalf ≤ Sums.value e' →
      (fltFlt2arith minusOneAndHalf false).1.toInt ≤ (fltFlt2arith e' false).1.toInt :=
  fltFlt2arith_floor_iff minusOneAndHalf (by decide) (by rw [value_minusOneAndHalf]; norm_num [abs_of_neg])

/-- It becomes minus one. -/
theorem minusOneAndHalf_chopped :
    ¬ ∀ e : FltArith, e.Canonical → |Sums.value e| < 2 ^ 31 →
      (fltFlt2arith e false).1.toInt = ⌊Sums.value e⌋ := by
  intro all
  have result : (fltFlt2arith minusOneAndHalf false).1.toInt = -1 := by decide
  have floor := all minusOneAndHalf (by decide) (by rw [value_minusOneAndHalf]; norm_num [abs_of_neg])
  rw [result, value_minusOneAndHalf] at floor
  norm_num at floor

end AckFormal.Flt.Integers
