import AckFormal.Fp.SoftFloat
import AckFormal.Fp.IntegerConversions
import AckFormal.Flt.Products

/-!
# Multiplying and dismembering

`fif8` cuts the integer part from the 64-bit product, and takes the fraction
from the product that is already rounded to a double.  Where this rounding
reaches the next integer the fraction comes out as one.
-/

namespace AckFormal.Fp.FractionParts

open Flt.Mantissa Flt.Number Flt.Operations Extended Fp.Compact Arithmetic Multiplication SoftFloat
  IntegerConversions Lib.Rounding Lib.Faithful
open Nat (cast_le cast_lt cast_mul cast_ofNat cast_pow two_pow_pos)

def DBL_M1LEFT : Int := 11

structure Fif8Returns where
  ipart : DOUBLE
  fpart : DOUBLE

/-- `fif8` after the multiplication, with the product in both forms. -/
def dismember (msl : Bool) (e1 : EXTEND) (y : DOUBLE) : Fif8Returns × List Trap :=
  if e1.exp < 0 then (⟨⟨0, 0⟩, y⟩, [])
  else if e1.exp > 62 - DBL_M1LEFT then (⟨y, ⟨0, 0⟩⟩, [])
  else
    let mantissa := b64Sft (b64Sft e1.mantissa (63 - e1.exp)) (e1.exp - 63)
    let ipart := compact msl ⟨e1.sign, e1.exp, mantissa⟩
    let fpart := compact msl (subExt (extend msl y) (extend msl ipart.1))
    (⟨ipart.1, fpart.1⟩, ipart.2 ++ fpart.2)

def fif8 (msl : Bool) (x y : DOUBLE) : Fif8Returns × List Trap :=
  let product := mulExt (extend msl y) (extend msl x)
  let packed := compact msl product.1
  let parts := dismember msl product.1 packed.1
  (parts.1, product.2 ++ packed.2 ++ parts.2)

/-- `mlf8`, which multiplies its second argument by the first. -/
def mlf8 (msl : Bool) (s2 s1 : DOUBLE) : DOUBLE × List Trap :=
  let product := mulExt (extend msl s1) (extend msl s2)
  let packed := compact msl product.1
  (packed.1, product.2 ++ packed.2)

/-! ## Where the rounding reaches an integer -/

/-- Rounded to 53 bits the mantissa `m` reaches an integer above it. -/
def Crosses (m : Nat) (exp : Int) : Prop :=
  -1 ≤ exp ∧ exp ≤ 51 ∧
    ∃ k : Nat, m < k * 2 ^ (63 - exp).toNat ∧ k * 2 ^ (63 - exp).toNat ≤ m + 2 ^ 10

def Reaches (f : EXTEND) : Prop := Crosses f.mantissa.value f.exp

variable {m d : Nat} {f : EXTEND} {a : ℚ} {e : Int}

theorem roundEven_lt_even {t : Nat} (below : m < 2 * t * 2 ^ 11) :
    roundEven m < 2 * t ↔ m + 2 ^ 10 < 2 * t * 2 ^ 11 := by
  unfold roundEven
  split <;> omega

/-- Rounding stays below the next multiple of a coarser unit, or reaches it. -/
theorem roundEven_below (coarse : 12 ≤ d) :
    roundEven m < (m / 2 ^ d + 1) * 2 ^ (d - 11) ↔
      ¬ ∃ k, m < k * 2 ^ d ∧ k * 2 ^ d ≤ m + 2 ^ 10 := by
  obtain ⟨c, rfl⟩ := Nat.exists_eq_add_of_le coarse
  have next : m < (m / 2 ^ (12 + c) + 1) * 2 ^ (12 + c) := by
    rw [Nat.add_mul, Nat.one_mul]
    exact Nat.lt_div_mul_add (two_pow_pos _)
  have unit : (m / 2 ^ (12 + c) + 1) * 2 ^ (12 + c) =
      2 * ((m / 2 ^ (12 + c) + 1) * 2 ^ c) * 2 ^ 11 := by
    ring
  have even : (m / 2 ^ (12 + c) + 1) * 2 ^ (12 + c - 11) = 2 * ((m / 2 ^ (12 + c) + 1) * 2 ^ c) := by
    rw [show 12 + c - 11 = c + 1 by omega, pow_succ]
    ring
  rw [even, roundEven_lt_even (unit ▸ next), ← unit]
  constructor
  · rintro far ⟨k, above, near⟩
    have more : m / 2 ^ (12 + c) + 1 ≤ k :=
      Nat.succ_le_of_lt ((Nat.div_lt_iff_lt_mul (two_pow_pos _)).mpr above)
    have large := Nat.mul_le_mul_right (2 ^ (12 + c)) more
    omega
  · intro none
    by_contra near
    exact none ⟨_, next, Nat.not_lt.mp near⟩

/-- What is left of the rounded mantissa without the multiples of that unit. -/
theorem roundEven_rest (coarse : 11 ≤ d) :
    ∃ rest, roundEven m = m / 2 ^ d * 2 ^ (d - 11) + rest ∧ rest ≤ 2 ^ (d - 11) := by
  obtain ⟨c, rfl⟩ := Nat.exists_eq_add_of_le coarse
  have split : m / 2 ^ (11 + c) = m / 2 ^ 11 / 2 ^ c := by
    rw [pow_add, Nat.div_div_eq_div_mul]
  have low := Nat.div_mul_le_self (m / 2 ^ 11) (2 ^ c)
  have high := Nat.lt_div_mul_add (a := m / 2 ^ 11) (two_pow_pos c)
  have up : m / 2 ^ 11 ≤ roundEven m ∧ roundEven m ≤ m / 2 ^ 11 + 1 := by
    unfold roundEven
    split <;> omega
  rw [split, Nat.add_sub_cancel_left]
  exact ⟨roundEven m - m / 2 ^ 11 / 2 ^ c * 2 ^ c, by omega, by omega⟩

/-- The number `compact` makes of a finite product, its sign apart. -/
def packed (f : EXTEND) : ℚ := units f * (2 : ℚ) ^ place f

theorem packed_nonneg (f : EXTEND) : 0 ≤ packed f := by
  unfold packed
  positivity

theorem packed_value (msl : Bool) (normal : f.mantissa.Normalized) (low : -16000 ≤ f.exp)
    (high : f.exp ≤ 16000) (finite : (compact msl f).1.Finite msl) :
    (compact msl f).1.value msl = EXTEND.signed f.sign (packed f) := by
  have infinite : ¬ (dblOver msl f.sign).1.Finite msl := by
    have field : (dblOver msl f.sign).1.exponent msl = 2047 := by
      unfold dblOver storeWords DOUBLE.exponent DOUBLE.high
      cases msl <;> by_cases plus : f.sign = 0 <;> simp only [plus, ne_eq, not_true_eq_false,
        not_false_eq_true, if_true, if_false, Bool.false_eq_true] <;> decide
    unfold DOUBLE.Finite
    omega
  have small : ¬ (1024 ≤ f.exp ∨ (f.exp = 1023 ∧ units f = 2 ^ 53)) := by
    intro large
    rw [compact_over msl normal (by omega) large] at finite
    exact infinite finite
  have room : f.exp = 1023 → units f < 2 ^ 53 := by
    intro last
    have most : units f ≤ 2 ^ 53 := by
      rw [(units_normal (by omega)).1]
      exact roundEven_le f.mantissa.value_lt
    omega
  exact (compact_value msl normal (by omega) (by omega) room).2.1

/-! ## The parts -/

/-- The properties of the parts of `product`, a rounded form of `v`, but for the
size of the fraction. -/
structure Parts (ipart fpart product v : ℚ) : Prop where
  integer : ∃ n : Int, ipart = n
  sign : fpart = 0 ∨ 0 < fpart * v
  sum : ipart + fpart = product

theorem sign_of_signed {sign : UInt16} {b : ℚ} (nonneg : 0 ≤ a) (positive : 0 < b) :
    EXTEND.signed sign a = 0 ∨ 0 < EXTEND.signed sign a * EXTEND.signed sign b := by
  rcases nonneg.eq_or_lt with zero | some
  · left
    rw [← zero, EXTEND.signed]
    split <;> simp
  · right
    have product := mul_pos some positive
    unfold EXTEND.signed
    split
    next => exact product
    next => rwa [neg_mul_neg]

theorem signed_int (sign : UInt16) (n : Nat) : ∃ k : Int, EXTEND.signed sign n = k := by
  unfold EXTEND.signed
  split
  next => exact ⟨n, by rw [Int.cast_natCast]⟩
  next => exact ⟨-n, by rw [Int.cast_neg, Int.cast_natCast]⟩

section Dismember

/-- The parts are those of the packed product, for a product `v`. -/
def Dismembers (msl : Bool) (f : EXTEND) (v : ℚ) : Prop :=
  Parts ((dismember msl f (compact msl f).1).1.ipart.value msl)
      ((dismember msl f (compact msl f).1).1.fpart.value msl) ((compact msl f).1.value msl) v ∧
    (|(dismember msl f (compact msl f).1).1.fpart.value msl| < 1 ↔ ¬ Reaches f)

variable {msl : Bool} {f : EXTEND}

/-- A number below one is its own fractional part. -/
theorem dismember_small (small : f.exp < 0) (normal : f.mantissa.Normalized) (low : -16000 ≤ f.exp)
    (finite : (compact msl f).1.Finite msl) {b : ℚ} (positive : 0 < b) :
    Dismembers msl f (EXTEND.signed f.sign b) := by
  unfold Dismembers
  have value := packed_value msl normal low (by omega) finite
  have zero := (zero_double msl).2
  rw [dismember, if_pos small]
  rw [zero, value]
  refine ⟨⟨⟨0, by norm_num⟩, sign_of_signed (packed_nonneg f) positive, zero_add _⟩, ?_⟩
  rw [abs_signed f.sign (packed_nonneg f)]
  by_cases last : f.exp = -1
  · obtain ⟨number, unit⟩ := units_normal (f := f) (by omega)
    have power : (2 : ℚ) ^ (f.exp - 52) = 1 / (2 ^ 53 : Nat) := by
      rw [last]
      norm_num
    have below : packed f < 1 ↔ roundEven f.mantissa.value < 2 ^ 53 := by
      unfold packed
      rw [number, unit, power, mul_one_div, div_lt_one (by positivity), cast_lt]
    have cross := roundEven_below (m := f.mantissa.value) (d := 64) (by decide)
    rw [Nat.div_eq_of_lt f.mantissa.value_lt] at cross
    rw [below]
    refine cross.trans (not_congr ?_)
    unfold Reaches Crosses
    rw [show (63 - f.exp).toNat = 64 by omega]
    exact ⟨fun found => ⟨by omega, by omega, found⟩, fun reaches => reaches.2.2⟩
  · -- far below one the rounding does not matter
    have few : units f ≤ 2 ^ 53 := by
      exact roundEven_le (lt_of_le_of_lt (Nat.div_le_self _ _) f.mantissa.value_lt)
    have unit : (2 : ℚ) ^ place f ≤ 2 ^ (-54 : Int) := by
      refine zpow_le_zpow_right₀ (by norm_num) ?_
      unfold place
      omega
    have bound : packed f ≤ (2 ^ 53 : Nat) * (2 : ℚ) ^ (-54 : Int) :=
      mul_le_mul (cast_le.mpr few) unit (by positivity) (by positivity)
    refine iff_of_true (lt_of_le_of_lt bound (by norm_num)) fun reaches => ?_
    have atLeast := reaches.1
    omega

theorem dismember_large (large : 51 < f.exp) (normal : f.mantissa.Normalized) (high : f.exp ≤ 16000)
    (finite : (compact msl f).1.Finite msl) (v : ℚ) :
    Dismembers msl f v := by
  unfold Dismembers
  have value := packed_value msl normal (by omega) high finite
  obtain ⟨number, unit⟩ := units_normal (f := f) (by omega)
  have zero := (zero_double msl).2
  obtain ⟨n, above⟩ := Int.eq_ofNat_of_zero_le (show 0 ≤ f.exp - 52 by omega)
  have whole : packed f = (units f * 2 ^ n : Nat) := by
    unfold packed
    rw [unit, above, zpow_natCast]
    push_cast
    rfl
  rw [dismember, if_neg (by omega), if_pos (by unfold DBL_M1LEFT; omega)]
  rw [zero]
  refine ⟨⟨?_, Or.inl rfl, add_zero _⟩, ?_⟩
  · rw [value, whole]
    exact signed_int _ _
  · refine iff_of_true (by norm_num) fun reaches => ?_
    have atMost := reaches.2.1
    omega

theorem masked_value (m : B64) {d : Nat} (small : d ≤ 63) :
    (b64Sft (b64Sft m d) (-d)).value = m.value / 2 ^ d * 2 ^ d := by
  rw [b64Sft_eq (b64Sft m d), fltB64Sft_left _ small, b64Sft_right]
  refine Nat.mod_eq_of_lt ?_
  exact lt_of_le_of_lt (Nat.div_mul_le_self _ _) m.value_lt

theorem sub_exact {y z : DOUBLE} (finiteY : y.Finite msl) (finiteZ : z.Finite msl)
    (format : Format (y.value msl - z.value msl)) (bounded : |y.value msl - z.value msl| ≤ largest) :
    (compact msl (subExt (extend msl y) (extend msl z))).1.value msl = y.value msl - z.value msl := by
  have delivers := subExt_delivers (extend_unpacked msl finiteY) (extend_unpacked msl finiteZ)
  rcases delivers with ⟨empty, none⟩ | approximates
  · rw [compact_zero msl empty, none]
    exact (zero_double msl).2
  · obtain ⟨-, respects, -⟩ := compact_approximates msl approximates bounded
    exact respects.eq_of_mem format

theorem one_le_largest : 1 ≤ largest :=
  one_le_mul_of_one_le_of_one_le (by norm_num) (one_le_zpow₀ (by norm_num) (by norm_num))

/-- Clearing the bits of the fraction leaves the integer part. -/
theorem compact_cut {e d : Nat} (exp : f.exp = e) (total : d + e = 63) (coarse : 12 ≤ d)
    (normal : f.mantissa.Normalized) :
    (compact msl ⟨f.sign, f.exp, b64Sft (b64Sft f.mantissa d) (-d)⟩).1.Finite msl ∧
      (compact msl ⟨f.sign, f.exp, b64Sft (b64Sft f.mantissa d) (-d)⟩).1.value msl =
        EXTEND.signed f.sign (f.mantissa.value / 2 ^ d : Nat) := by
  have masked := masked_value f.mantissa (d := d) (by omega)
  have leading : 2 ^ 63 ≤ f.mantissa.value / 2 ^ d * 2 ^ d := by
    have split : 2 ^ 63 = 2 ^ e * 2 ^ d := by rw [← pow_add, Nat.add_comm, total]
    have most : 2 ^ e ≤ f.mantissa.value / 2 ^ d := by
      rw [Nat.le_div_iff_mul_le (two_pow_pos d), ← split]
      exact normal
    rw [split]
    exact Nat.mul_le_mul_right _ most
  have grid : 2 ^ 11 ∣ f.mantissa.value / 2 ^ d * 2 ^ d :=
    Dvd.dvd.mul_left (pow_dvd_pow 2 (by omega)) _
  have unit : (2 : ℚ) ^ d * 2 ^ (f.exp - 63) = 1 := by
    have step : f.exp - 63 = -(d : Int) := by omega
    rw [step, zpow_neg, zpow_natCast]
    exact mul_inv_cancel₀ (by positivity)
  obtain ⟨finite, value, -⟩ := compact_exact msl
    (f := ⟨f.sign, f.exp, b64Sft (b64Sft f.mantissa d) (-d)⟩)
    (by
      change 2 ^ 63 ≤ _
      rw [masked]
      exact leading)
    (show -1022 ≤ f.exp by omega) (show f.exp ≤ 1022 by omega) (by rw [masked]; exact grid)
  refine ⟨finite, ?_⟩
  rw [value, EXTEND.value, EXTEND.unit, masked]
  rw [cast_mul, cast_pow, cast_ofNat, mul_assoc, unit, mul_one]

/-- In between the integer part is cut off, and the fraction is exact. -/
theorem dismember_middle (atLeast : 0 ≤ f.exp) (atMost : f.exp ≤ 51) (normal : f.mantissa.Normalized)
    (finite : (compact msl f).1.Finite msl) {b : ℚ} (positive : 0 < b) :
    Dismembers msl f (EXTEND.signed f.sign b) := by
  unfold Dismembers
  have value := packed_value msl normal (by omega) (by omega) finite
  obtain ⟨number, unit⟩ := units_normal (f := f) (by omega)
  obtain ⟨e, exp⟩ := Int.eq_ofNat_of_zero_le atLeast
  obtain ⟨d, both⟩ : ∃ d : Nat, d + e = 63 := ⟨63 - e, by omega⟩
  have right : 63 - f.exp = d := by omega
  have left : f.exp - 63 = -(d : Int) := by omega
  have cut : (compact msl _).1.Finite msl ∧ (compact msl _).1.value msl = _ :=
    compact_cut exp both (by omega) normal
  obtain ⟨finiteI, valueI⟩ := cut
  have cross := roundEven_below (m := f.mantissa.value) (d := d) (by omega)
  obtain ⟨rest, sum, most⟩ := roundEven_rest (m := f.mantissa.value) (d := d) (by omega)
  generalize f.mantissa.value / 2 ^ d = n at valueI cross sum
  -- the fraction, as the rest in units of the rounded product
  have power : ((2 ^ (d - 11) : Nat) : ℚ) * 2 ^ (f.exp - 52) = 1 := by
    have step : f.exp - 52 = -((d - 11 : Nat) : Int) := by omega
    rw [step, zpow_neg, zpow_natCast, cast_pow, cast_ofNat]
    exact mul_inv_cancel₀ (by positivity)
  have total : packed f = n + rest * (2 : ℚ) ^ (f.exp - 52) := by
    unfold packed
    rw [number, unit, sum, Nat.cast_add, cast_mul, add_mul, mul_assoc, power, mul_one]
  have nonneg : (0 : ℚ) ≤ rest * (2 : ℚ) ^ (f.exp - 52) := by positivity
  have atMostOne : (rest : ℚ) * (2 : ℚ) ^ (f.exp - 52) ≤ 1 := by
    rw [← power]
    exact mul_le_mul_of_nonneg_right (cast_le.mpr most) (by positivity)
  have belowOne : (rest : ℚ) * (2 : ℚ) ^ (f.exp - 52) < 1 ↔ rest < 2 ^ (d - 11) := by
    rw [← power, mul_lt_mul_iff_left₀ (by positivity), cast_lt]
  have difference : EXTEND.signed f.sign (packed f) - EXTEND.signed f.sign n =
      EXTEND.signed f.sign (rest * (2 : ℚ) ^ (f.exp - 52)) := by
    rw [signed_sub, total, add_sub_cancel_left]
  have size := abs_signed f.sign nonneg
  have fraction := sub_exact finite finiteI
    (by
      rw [value, valueI, difference]
      refine ⟨rest, f.exp - 52, lt_of_le_of_lt most ?_, by omega, size⟩
      exact Nat.pow_lt_pow_right (by decide) (by omega))
    (by
      rw [value, valueI, difference, size]
      exact atMostOne.trans one_le_largest)
  rw [value, valueI, difference] at fraction
  rw [dismember, if_neg (by omega), if_neg (by unfold DBL_M1LEFT; omega), right, left]
  rw [valueI, fraction, value]
  refine ⟨⟨signed_int f.sign n, sign_of_signed nonneg positive, ?_⟩, ?_⟩
  · rw [← difference]
    ring
  · rw [size, belowOne]
    refine Iff.trans ?_ (cross.trans (not_congr ?_))
    · rw [sum, Nat.add_mul, Nat.one_mul]
      omega
    · unfold Reaches Crosses
      rw [right, Int.toNat_natCast]
      exact ⟨fun found => ⟨by omega, by omega, found⟩, fun reaches => reaches.2.2⟩

end Dismember

/-! ## In terms of the exact product -/

/-- `a` lies below an integer by more than half and at most 1024 and a half units
in the last place of its 64 significant bits. -/
def JustBelow (a : ℚ) : Prop :=
  ∃ k e : Int, -1 ≤ e ∧ e ≤ 51 ∧ (2 : ℚ) ^ e ≤ a ∧ a < 2 ^ (e + 1) ∧
    (2 : ℚ) ^ (e - 64) < k - a ∧ k - a ≤ (2 ^ 10 + 1 / 2) * 2 ^ (e - 63)

theorem binade_unique {e' : Int} (low : (2 : ℚ) ^ e ≤ a) (high : a < 2 ^ (e + 1))
    (low' : (2 : ℚ) ^ e' ≤ a) (high' : a < 2 ^ (e' + 1)) : e' = e := by
  have first : e < e' + 1 := (zpow_lt_zpow_iff_right₀ (by norm_num)).mp (low.trans_lt high')
  have second : e' < e + 1 := (zpow_lt_zpow_iff_right₀ (by norm_num)).mp (low'.trans_lt high)
  omega

/-- Rounding crosses an integer just from so little below it. -/
theorem justBelow_iff (low : (2 : ℚ) ^ e ≤ a) (high : a < 2 ^ (e + 1)) {n : Nat}
    (rounded : ⌊a / (2 : ℚ) ^ (e - 63) + 1 / 2⌋ = n) : JustBelow a ↔ Crosses n e := by
  have unitPos : (0 : ℚ) < 2 ^ (e - 63) := by positivity
  have half : (2 : ℚ) ^ (e - 64) = 2 ^ (e - 63) / 2 := by
    rw [eq_div_iff (by norm_num), ← zpow_add_one₀ (by norm_num)]
    congr 1
    omega
  have scaled : a = a / (2 : ℚ) ^ (e - 63) * 2 ^ (e - 63) := (div_mul_cancel₀ a unitPos.ne').symm
  -- one integer, in those units
  have one (k : Nat) (small : e ≤ 51) :
      ((2 : ℚ) ^ (e - 64) < k - a ∧ k - a ≤ (2 ^ 10 + 1 / 2) * 2 ^ (e - 63)) ↔
        n < k * 2 ^ (63 - e).toNat ∧ k * 2 ^ (63 - e).toNat ≤ n + 2 ^ 10 := by
    have unit : ((2 ^ (63 - e).toNat : Nat) : ℚ) * 2 ^ (e - 63) = 1 := by
      have step : e - 63 = -((63 - e).toNat : Int) := by omega
      rw [step, zpow_neg, zpow_natCast, cast_pow, cast_ofNat]
      exact mul_inv_cancel₀ (by positivity)
    have integer : (k : ℚ) = (k * 2 ^ (63 - e).toNat : Nat) * 2 ^ (e - 63) := by
      rw [cast_mul, mul_assoc, unit, mul_one]
    have distance : (k : ℚ) - a =
        ((k * 2 ^ (63 - e).toNat : Nat) - a / (2 : ℚ) ^ (e - 63)) * 2 ^ (e - 63) := by
      rw [sub_mul, ← integer, ← scaled]
    generalize k * 2 ^ (63 - e).toNat = l at distance
    generalize a / (2 : ℚ) ^ (e - 63) = s at distance rounded
    rw [half, distance, div_eq_inv_mul, mul_lt_mul_iff_left₀ unitPos, mul_le_mul_iff_left₀ unitPos]
    have below : s + 1 / 2 < ((l : Int) : ℚ) ↔ n < l := by
      rw [← Int.floor_lt, rounded, cast_lt]
    have near : (l : ℚ) - 2 ^ 10 ≤ s + 1 / 2 ↔ l ≤ n + 2 ^ 10 := by
      have cast : (l : ℚ) - 2 ^ 10 = ((l - 2 ^ 10 : Int) : ℚ) := by norm_num
      rw [cast, ← Int.le_floor, rounded]
      omega
    rw [Int.cast_natCast] at below
    rw [← below, ← near]
    constructor
    · rintro ⟨first, second⟩
      exact ⟨by linarith, by linarith⟩
    · rintro ⟨first, second⟩
      exact ⟨by linarith, by linarith⟩
  constructor
  · rintro ⟨k, e', atLeast, atMost, low', high', above, near⟩
    obtain rfl := binade_unique low high low' high'
    have positive : (0 : ℚ) < (2 : ℚ) ^ e' := by positivity
    have nonneg : 0 ≤ k := by
      have real : (0 : ℚ) ≤ k := by linarith
      exact_mod_cast real
    obtain ⟨k, rfl⟩ := Int.eq_ofNat_of_zero_le nonneg
    exact ⟨atLeast, atMost, k, (one k atMost).mp ⟨above, near⟩⟩
  · rintro ⟨atLeast, atMost, k, found⟩
    obtain ⟨above, near⟩ := (one k atMost).mpr found
    exact ⟨k, e, atLeast, atMost, low, high, above, near⟩

theorem not_crosses_multiple {k : Nat} (coarse : 10 < d) (multiple : 2 ^ d ∣ m) :
    ¬ (m < k * 2 ^ d ∧ k * 2 ^ d ≤ m + 2 ^ 10) := by
  obtain ⟨c, rfl⟩ := multiple
  rintro ⟨below, near⟩
  have more : c < k := by
    rw [Nat.mul_comm] at below
    exact Nat.lt_of_mul_lt_mul_right below
  have large : (c + 1) * 2 ^ d ≤ k * 2 ^ d := Nat.mul_le_mul_right _ more
  have wide : 2 ^ 10 < 2 ^ d := Nat.pow_lt_pow_right (by decide) coarse
  rw [Nat.add_mul, Nat.one_mul, Nat.mul_comm c] at large
  omega

theorem crosses_carry (e : Int) : Crosses (2 ^ 63) (e + 1) ↔ Crosses (2 ^ 64) e := by
  refine iff_of_false ?_ ?_
  · rintro ⟨atLeast, atMost, k, found⟩
    by_cases top : e + 1 = -1
    · rw [show (63 - (e + 1)).toNat = 64 by omega] at found
      omega
    · exact not_crosses_multiple (by omega) (pow_dvd_pow 2 (by omega)) found
  · rintro ⟨atLeast, atMost, k, found⟩
    exact not_crosses_multiple (by omega) (pow_dvd_pow 2 (by omega)) found

/-- A rounded mantissa that is normalized is that of the same binade, or of the next. -/
theorem normalized_binade {n : Nat} {exp : Int} (mLow : 2 ^ 63 ≤ m) (mHigh : m < 2 ^ 64)
    (nLow : 2 ^ 63 ≤ n) (nHigh : n ≤ 2 ^ 64) (same : (m : ℚ) * 2 ^ (exp - 63) = n * 2 ^ (e - 63)) :
    (exp = e ∧ m = n) ∨ (exp = e + 1 ∧ m = 2 ^ 63 ∧ n = 2 ^ 64) := by
  have scale {p q : Nat} {u v : Int} (t : Nat) (apart : v = u + t)
      (equal : (p : ℚ) * 2 ^ (v - 63) = q * 2 ^ (u - 63)) : p * 2 ^ t = q := by
    have step : v - 63 = u - 63 + t := by omega
    rw [step, zpow_add₀ (by norm_num), zpow_natCast, mul_comm ((2 : ℚ) ^ (u - 63)), ← mul_assoc] at equal
    have cancelled := mul_right_cancel₀ (zpow_ne_zero _ (by norm_num)) equal
    exact_mod_cast cancelled
  rcases le_total e exp with up | down
  · obtain ⟨t, apart⟩ := Int.eq_ofNat_of_zero_le (show 0 ≤ exp - e by omega)
    have product := scale t (by omega) same
    match t with
    | 0 => exact Or.inl ⟨by omega, by omega⟩
    | 1 => exact Or.inr ⟨by omega, by omega, by omega⟩
    | t + 2 =>
      have large : 2 ^ 63 * 4 ≤ m * 2 ^ (t + 2) := by
        rw [pow_add]
        exact Nat.mul_le_mul mLow (Nat.le_mul_of_pos_left 4 (two_pow_pos t))
      omega
  · obtain ⟨t, apart⟩ := Int.eq_ofNat_of_zero_le (show 0 ≤ e - exp by omega)
    have product := scale t (by omega) same.symm
    match t with
    | 0 => exact Or.inl ⟨by omega, by omega⟩
    | t + 1 =>
      have large : 2 ^ 63 * 2 ≤ n * 2 ^ (t + 1) := by
        exact Nat.mul_le_mul nLow (Nat.le_mul_of_pos_left 2 (two_pow_pos t))
      omega

/-- Packing reaches the next integer exactly from just below it. -/
theorem reaches_iff (normal : f.mantissa.Normalized) (low : (2 : ℚ) ^ e ≤ a)
    (high : a < 2 ^ (e + 1))
    (rounded : (f.mantissa.value : ℚ) * 2 ^ (f.exp - 63) = roundMultiple a (2 ^ (e - 63))) :
    Reaches f ↔ JustBelow a := by
  have unitPos : (0 : ℚ) < 2 ^ (e - 63) := by positivity
  have least : ((2 ^ 63 : Nat) : ℚ) ≤ a / 2 ^ (e - 63) := by
    rw [le_div_iff₀ unitPos, cast_pow, cast_ofNat, ← zpow_natCast, ← zpow_add₀ (by norm_num)]
    refine le_trans (le_of_eq ?_) low
    congr 1
    omega
  have most : a / 2 ^ (e - 63) < ((2 ^ 64 : Nat) : ℚ) := by
    rw [div_lt_iff₀ unitPos, cast_pow, cast_ofNat, ← zpow_natCast, ← zpow_add₀ (by norm_num)]
    refine lt_of_lt_of_le high (le_of_eq ?_)
    congr 1
    omega
  have floorLow : ((2 ^ 63 : Nat) : Int) ≤ ⌊a / (2 : ℚ) ^ (e - 63) + 1 / 2⌋ := by
    rw [Int.le_floor, Int.cast_natCast]
    linarith
  have floorHigh : ⌊a / (2 : ℚ) ^ (e - 63) + 1 / 2⌋ < ((2 ^ 64 + 1 : Nat) : Int) := by
    rw [Int.floor_lt, Int.cast_natCast, Nat.cast_add, Nat.cast_one]
    linarith
  obtain ⟨n, floor⟩ := Int.eq_ofNat_of_zero_le (show 0 ≤ ⌊a / (2 : ℚ) ^ (e - 63) + 1 / 2⌋ by omega)
  rw [roundMultiple, floor, Int.cast_natCast] at rounded
  rw [justBelow_iff low high floor]
  unfold Reaches
  rcases normalized_binade normal f.mantissa.value_lt (by omega) (by omega) rounded with
    ⟨exp, same⟩ | ⟨exp, mantissa, top⟩
  · rw [exp, same]
  · rw [exp, mantissa, top]
    exact crosses_carry e

structure Multiplied (f : EXTEND) (v : ℚ) : Prop where
  normal : f.mantissa.Normalized
  low : -16000 ≤ f.exp
  high : f.exp ≤ 16000
  sign : v = EXTEND.signed f.sign |v|
  rounded : ∃ e : Int, (2 : ℚ) ^ e ≤ |v| ∧ |v| < 2 ^ (e + 1) ∧
    (f.mantissa.value : ℚ) * 2 ^ (f.exp - 63) = roundMultiple |v| (2 ^ (e - 63))

section

variable {e1 e2 : EXTEND} {v1 v2 : ℚ} (first : Unpacked e1 v1) (second : Unpacked e2 v2)
include first second

/-- The product of two numbers, rounded to 64 bits. -/
theorem mulUnchecked_multiplied (nonzero1 : e1.mantissa ≠ FltMantissa.zero)
    (nonzero2 : e2.mantissa ≠ FltMantissa.zero) : Multiplied (mulUnchecked e1 e2) (v1 * v2) := by
  have approximates := mulUnchecked_approximates first second nonzero1 nonzero2
  obtain ⟨normal1, low1, high1⟩ := first.range nonzero1
  obtain ⟨normal2, low2, high2⟩ := second.range nonzero2
  have size : |v1 * v2| = Flt.Products.magnitude ⟨false, e1.exp, e1.mantissa⟩ *
      Flt.Products.magnitude ⟨false, e2.exp, e2.mantissa⟩ := by
    have nonneg (e : EXTEND) : (0 : ℚ) ≤ e.mantissa.value * e.unit :=
      mul_nonneg (Nat.cast_nonneg _) e.unit_pos.le
    rw [abs_mul, ← first.value, ← second.value, EXTEND.value, EXTEND.value,
      abs_signed _ (nonneg e1), abs_signed _ (nonneg e2)]
    rfl
  obtain ⟨k, -, count, rounded⟩ := @Flt.Products.fltMulUnchecked_rounded
    ⟨false, e1.exp, e1.mantissa⟩ ⟨false, e2.exp, e2.mantissa⟩
    (by dsimp only; omega) (by dsimp only; omega)
  rw [← size] at rounded
  rw [Flt.Products.magnitude_mul] at size
  have large : 2 ^ 63 * 2 ^ 63 ≤ e1.mantissa.value * e2.mantissa.value :=
    Nat.mul_le_mul normal1 normal2
  have most : e1.mantissa.value * e2.mantissa.value ≤ (2 ^ 64 - 1) * (2 ^ 64 - 1) :=
    Nat.mul_le_mul (Nat.le_pred_of_lt e1.mantissa.value_lt) (Nat.le_pred_of_lt e2.mantissa.value_lt)
  generalize e1.mantissa.value * e2.mantissa.value = product at count size large most
  have inside : 2 ^ (k + 63) ≤ product ∧ product < 2 ^ (k + 64) := by
    split at count
    next short =>
      rw [count]
      omega
    next long =>
      rw [count]
      omega
  have power (n : Nat) : ((2 ^ n : Nat) : ℚ) * 2 ^ (e1.exp + e2.exp - 126) =
      2 ^ (e1.exp + e2.exp - 126 + n) := by
    rw [cast_pow, cast_ofNat, ← zpow_natCast, ← zpow_add₀ (by norm_num), add_comm]
  have unitPos : (0 : ℚ) < 2 ^ (e1.exp + e2.exp - 126) := by positivity
  refine ⟨approximates.normal, approximates.low, approximates.high, ?_,
    e1.exp + e2.exp - 126 + (k + 63 : Nat), ?_, ?_, ?_⟩
  · obtain ⟨w, near, value⟩ := approximates.near
    have leading : (2 : ℚ) ^ 63 ≤ (mulUnchecked e1 e2).mantissa.value := by
      exact_mod_cast approximates.normal
    have positive : 0 < w := by linarith [near.high]
    have scale := (mulUnchecked e1 e2).unit_pos
    rw [value, abs_signed _ (by positivity)]
  · rw [size, ← power]
    exact mul_le_mul_of_nonneg_right (cast_le.mpr inside.1) unitPos.le
  · have next : e1.exp + e2.exp - 126 + (k + 63 : Nat) + 1 = e1.exp + e2.exp - 126 + (k + 64 : Nat) := by
      push_cast
      ring
    rw [next, size, ← power]
    exact mul_lt_mul_of_pos_right (cast_lt.mpr inside.2) unitPos
  · have quantum : e1.exp + e2.exp - 126 + (k + 63 : Nat) - 63 = e1.exp + e2.exp - 126 + k := by
      push_cast
      ring
    rw [quantum, ← rounded, mulUnchecked_eq]
    rfl

theorem mulExt_cases :
    ((mulExt e1 e2).1.mantissa = FltMantissa.zero ∧ v1 * v2 = 0) ∨
      Multiplied (mulExt e1 e2).1 (v1 * v2) := by
  by_cases empty : e1.mantissa = FltMantissa.zero ∨ e2.mantissa = FltMantissa.zero
  · obtain ⟨mantissa, product, -⟩ := mulExt_zero first second empty
    exact Or.inl ⟨mantissa, product⟩
  · obtain ⟨nonzero1, nonzero2⟩ := not_or.mp empty
    have multiplied := mulUnchecked_multiplied first second nonzero1 nonzero2
    right
    unfold mulExt
    rw [mulRange_inside multiplied.low multiplied.high]
    exact multiplied

end

theorem dismember_zero {msl : Bool} (empty : f.mantissa = FltMantissa.zero) :
    (dismember msl f ⟨0, 0⟩).1 = ⟨⟨0, 0⟩, ⟨0, 0⟩⟩ := by
  have unpacked : extend msl ⟨0, 0⟩ = ⟨0, 0, ⟨0, 0⟩⟩ :=
    extend_zero (by cases msl <;> rfl) (by cases msl <;> rfl)
  have difference : (subExt ⟨0, 0, ⟨0, 0⟩⟩ ⟨0, 0, ⟨0, 0⟩⟩).mantissa = FltMantissa.zero := by decide
  unfold dismember
  split
  next => rfl
  next atLeast =>
    split
    next => rfl
    next atMost =>
      unfold DBL_M1LEFT at atMost
      obtain ⟨d, right⟩ := Int.eq_ofNat_of_zero_le (show 0 ≤ 63 - f.exp by omega)
      have left : f.exp - 63 = -(d : Int) := by omega
      have masked : b64Sft (b64Sft f.mantissa (63 - f.exp)) (f.exp - 63) = FltMantissa.zero := by
        rw [← FltMantissa.value_eq_zero, right, left, masked_value _ (by omega), empty,
          FltMantissa.value_zero, Nat.zero_div, Nat.zero_mul]
      dsimp only
      rw [masked, compact_zero msl (f := ⟨f.sign, f.exp, FltMantissa.zero⟩) rfl, unpacked,
        compact_zero msl difference]

/-- `fif8` splits the product that `mlf8` returns into an integer and a fraction
of its sign; the fraction is below one unless the exact product lies just below
an integer. -/
theorem fif8_splits_iff (msl : Bool) (x y : DOUBLE) (finiteX : x.Finite msl) (finiteY : y.Finite msl)
    (inRange : (mlf8 msl x y).1.Finite msl) :
    ((∃ n : Int, (fif8 msl x y).1.ipart.value msl = n) ∧
      |(fif8 msl x y).1.fpart.value msl| < 1 ∧
      ((fif8 msl x y).1.fpart.value msl = 0 ∨
        0 < (fif8 msl x y).1.fpart.value msl * (x.value msl * y.value msl)) ∧
      (fif8 msl x y).1.ipart.value msl + (fif8 msl x y).1.fpart.value msl = (mlf8 msl x y).1.value msl) ↔
    ¬ JustBelow |x.value msl * y.value msl| := by
  have zero := (zero_double msl).2
  rw [mul_comm (x.value msl)]
  unfold fif8
  unfold mlf8 at inRange ⊢
  dsimp only at inRange ⊢
  rcases mulExt_cases (extend_unpacked msl finiteY) (extend_unpacked msl finiteX) with
    ⟨empty, product⟩ | multiplied
  · have none : ¬ JustBelow |y.value msl * x.value msl| := by
      rintro ⟨k, e, -, -, low, -⟩
      rw [product, abs_zero] at low
      exact absurd low (not_le.mpr (by positivity))
    rw [compact_zero msl empty, dismember_zero empty, zero]
    exact iff_of_true ⟨⟨0, by norm_num⟩, by norm_num, Or.inl rfl, add_zero 0⟩ none
  · generalize y.value msl * x.value msl = v at multiplied ⊢
    generalize (mulExt (extend msl y) (extend msl x)).1 = f at multiplied inRange ⊢
    obtain ⟨normal, low, high, sign, e, least, most, rounded⟩ := multiplied
    have positive : 0 < |v| := lt_of_lt_of_le (by positivity) least
    have reaches := reaches_iff normal least most rounded
    have parts : Dismembers msl f v := by
      rw [sign]
      rcases lt_or_ge f.exp 0 with small | atLeast
      · exact dismember_small small normal low inRange positive
      · rcases lt_or_ge 51 f.exp with large | atMost
        · exact dismember_large large normal high inRange _
        · exact dismember_middle atLeast atMost normal inRange positive
    obtain ⟨⟨integer, signs, sum⟩, fraction⟩ := parts
    rw [← reaches, ← fraction]
    exact ⟨fun all => all.2.1, fun below => ⟨integer, below, signs, sum⟩⟩

/-- Three halves times five halves. -/
theorem fif8_splits_iff_three_halves :
    ((∃ n : Int, (fif8 true ⟨0x3FF80000, 0⟩ ⟨0x40040000, 0⟩).1.ipart.value true = n) ∧
      |(fif8 true ⟨0x3FF80000, 0⟩ ⟨0x40040000, 0⟩).1.fpart.value true| < 1 ∧
      ((fif8 true ⟨0x3FF80000, 0⟩ ⟨0x40040000, 0⟩).1.fpart.value true = 0 ∨
        0 < (fif8 true ⟨0x3FF80000, 0⟩ ⟨0x40040000, 0⟩).1.fpart.value true *
          ((⟨0x3FF80000, 0⟩ : DOUBLE).value true * (⟨0x40040000, 0⟩ : DOUBLE).value true)) ∧
      (fif8 true ⟨0x3FF80000, 0⟩ ⟨0x40040000, 0⟩).1.ipart.value true +
          (fif8 true ⟨0x3FF80000, 0⟩ ⟨0x40040000, 0⟩).1.fpart.value true =
        (mlf8 true ⟨0x3FF80000, 0⟩ ⟨0x40040000, 0⟩).1.value true) ↔
    ¬ JustBelow |(⟨0x3FF80000, 0⟩ : DOUBLE).value true * (⟨0x40040000, 0⟩ : DOUBLE).value true| :=
  fif8_splits_iff true ⟨0x3FF80000, 0⟩ ⟨0x40040000, 0⟩ (by decide) (by decide) (by decide)

/-- `1 - 2 ** -32` and `1 + 2 ** -32`, whose product rounds up to one. -/
theorem fif8_fraction_one :
    ¬ ∀ (msl : Bool) (x y : DOUBLE), x.Finite msl → y.Finite msl → (mlf8 msl x y).1.Finite msl →
      (∃ n : Int, (fif8 msl x y).1.ipart.value msl = n) ∧
        |(fif8 msl x y).1.fpart.value msl| < 1 ∧
        ((fif8 msl x y).1.fpart.value msl = 0 ∨
          0 < (fif8 msl x y).1.fpart.value msl * (x.value msl * y.value msl)) ∧
        (fif8 msl x y).1.ipart.value msl + (fif8 msl x y).1.fpart.value msl =
          (mlf8 msl x y).1.value msl := by
  intro splits
  obtain ⟨-, below, -⟩ := splits true ⟨0x3FEFFFFF, 0xFFE00000⟩ ⟨0x3FF00000, 0x00100000⟩ (by decide)
    (by decide) (by decide)
  have fraction : (fif8 true ⟨0x3FEFFFFF, 0xFFE00000⟩ ⟨0x3FF00000, 0x00100000⟩).1.fpart =
      ⟨0x3FF00000, 0⟩ := by decide
  have one : (⟨0x3FF00000, 0⟩ : DOUBLE).value true = 1 := by
    rw [value_of_fields (e := 1022) (f := 0) (by decide) (by decide) (by decide)]
    norm_num
  rw [fraction, one] at below
  norm_num at below

end AckFormal.Fp.FractionParts
