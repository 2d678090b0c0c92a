import AckFormal.Fp.Comparison
import AckFormal.Fp.CompactSingle
import Mathlib.Data.Nat.Cast.Field
import Mathlib.Tactic.LinearCombination

/-!
# Unpacking and packing

`compact` after `extend` gives back every finite number.  On other extended
numbers `compact` rounds to the nearest number of the target, where an infinity
counts as the number one step beyond the largest finite one, unless bits were
shifted out on the way to the subnormal numbers.  It fails for exponents that
the bias takes out of a `short`, and to a `SINGLE` also where only the lower
word of the mantissa tells that a number is more than half way up.
-/

namespace AckFormal.Fp.RoundTrips

open Flt.Mantissa Flt.Number Extended Singles Comparison Lib.Faithful
open UInt32 (toNat_add toNat_inj toNat_lt)

/-! ## Rounded numbers -/

/-- `t` is a neighbour of `v` among the numbers `S`; the nearest one if `exact`. -/
structure Rounded (S : ℚ → Prop) (exact : Prop) (v t : ℚ) : Prop where
  neighbour : Adjacent S v t
  nearest : exact → ∀ s, S s → |t - v| ≤ |s - v|

namespace Rounded

variable {S : ℚ → Prop} {exact : Prop} {v t : ℚ}

theorem neg (symmetric : ∀ s, S s → S (-s)) (rounded : Rounded S exact v t) :
    Rounded S exact (-v) (-t) := by
  obtain ⟨⟨member, side⟩, nearest⟩ := rounded
  refine ⟨⟨symmetric t member, ?_⟩, fun complete s other => ?_⟩
  · rcases side with ⟨below, greatest⟩ | ⟨above, least⟩
    · refine Or.inr ⟨neg_le_neg below, fun s other upper => ?_⟩
      have bound := greatest (-s) (symmetric s other) (by linarith)
      linarith
    · refine Or.inl ⟨neg_le_neg above, fun s other lower => ?_⟩
      have bound := least (-s) (symmetric s other) (by linarith)
      linarith
  · have bound := nearest complete (-s) (symmetric s other)
    rw [← abs_neg (-t - -v), ← abs_neg (s - -v)]
    calc |-(-t - -v)| = |t - v| := by ring_nf
      _ ≤ |-s - v| := bound
      _ = |-(s - -v)| := by ring_nf

theorem signed_iff (symmetric : ∀ s, S s → S (-s)) (sign : UInt16) :
    Rounded S exact (EXTEND.signed sign v) (EXTEND.signed sign t) ↔ Rounded S exact v t := by
  unfold EXTEND.signed
  split
  next => exact Iff.rfl
  next =>
    refine ⟨fun rounded => ?_, neg symmetric⟩
    have back := rounded.neg symmetric
    rwa [neg_neg, neg_neg] at back

theorem beyond (member : S t) (last : ∀ s, S s → s ≤ t) (above : t ≤ v) : Rounded S exact v t := by
  refine ⟨⟨member, Or.inl ⟨above, fun s other _ => last s other⟩⟩, fun _ s other => ?_⟩
  have bound := last s other
  rw [abs_of_nonpos (by linarith), abs_of_nonpos (by linarith)]
  linarith

/-- Zero is no neighbour of a number beyond a positive one. -/
theorem not_zero {s : ℚ} (member : S s) (positive : 0 < s) (above : s ≤ v) :
    ¬ Rounded S exact v 0 := by
  rintro ⟨⟨-, ⟨-, greatest⟩ | ⟨upper, -⟩⟩, -⟩
  · exact absurd (greatest s member above) (not_le.mpr positive)
  · linarith

/-- A multiple of the step of the format, within a step, and within half a step
if it is to be the nearest. -/
theorem inside {precision : Nat} {least u : Int} (positive : 0 < precision) (member : S t)
    (format : ∀ s, S s → Signed precision least s) (onGrid : Multiple u t)
    (near : |t - v| < 2 ^ u) (half : exact → |t - v| ≤ 2 ^ u / 2)
    (large : u = least ∨ 2 ^ ((precision : Int) - 1) * (2 : ℚ) ^ u ≤ v) : Rounded S exact v t := by
  have respects : Respects (Signed precision least) v t := by
    rcases large with coarsest | large
    · subst coarsest
      exact respects_of_grid (fun s other => other.multiple) onGrid near
    · exact respects_of_near positive onGrid near large
  refine ⟨(respects.mono format).adjacent member, fun complete s other => ?_⟩
  exact nearest_of_half positive onGrid (half complete) large (format s other)

end Rounded

/-- A magnitude that the fields of an encoding make up lies in the format. -/
theorem scaled_representable {p e f : Nat} (bound : f < 2 ^ p) (least : Int) :
    Lib.Rounding.Representable (p + 1) least (scaled p e f * (2 : ℚ) ^ least) := by
  refine ⟨if e = 0 then f else 2 ^ p + f, least + (e - 1 : Nat), ?_, by omega, ?_⟩
  · rw [pow_succ]
    split <;> omega
  · unfold scaled
    rw [zpow_add₀ (by norm_num), zpow_natCast]
    push_cast
    ring

/-- Up to the field of the infinities the magnitudes grow to that of an infinity. -/
theorem scaled_le {p e f top : Nat} (bound : f < 2 ^ p) (numeric : e * 2 ^ p + f ≤ top * 2 ^ p) :
    scaled p e f ≤ scaled p top 0 := by
  have more : scaled p top 0 < scaled p e f ↔ top * 2 ^ p + 0 < e * 2 ^ p + f :=
    scaled_lt_iff (Nat.two_pow_pos p) bound
  omega

/-! ## Units of the last place -/

section Units

variable {f : EXTEND} {n shifted wide precision : Nat} {place least : Int}

/-- The unit of the last place in units of the mantissa. -/
theorem place_unit (shift : place = f.exp - 63 + shifted + wide) :
    (2 : ℚ) ^ place = f.unit * 2 ^ shifted * 2 ^ wide := by
  rw [EXTEND.unit, ← zpow_natCast (2 : ℚ) shifted, ← zpow_natCast (2 : ℚ) wide,
    ← zpow_add₀ (by norm_num), ← zpow_add₀ (by norm_num), shift]

/-- The distance of the result, in units of the mantissa that is packed. -/
theorem place_distance (shift : place = f.exp - 63 + shifted + wide) :
    (n : ℚ) * 2 ^ place - f.mantissa.value * f.unit =
      ((n : ℚ) * 2 ^ wide - f.mantissa.value / 2 ^ shifted) * (f.unit * 2 ^ shifted) := by
  rw [place_unit shift]
  field_simp

theorem exact_quotient {m : Nat} (exact : m % 2 ^ shifted = 0) :
    (m : ℚ) / 2 ^ shifted = (m / 2 ^ shifted : Nat) := by
  rw [Nat.cast_div (Nat.dvd_of_mod_eq_zero exact) (by positivity), Nat.cast_pow, Nat.cast_ofNat]

/-- Units within one of the mantissa, and within a half where no bit is shifted out. -/
theorem rounded_of_units {S : ℚ → Prop} {exact : Prop} (positive : 0 < precision)
    (shift : place = f.exp - 63 + shifted + wide) (normal : f.mantissa.Normalized)
    (member : S (n * (2 : ℚ) ^ place)) (format : ∀ s, S s → Signed precision least s)
    (up : f.mantissa.value / 2 ^ shifted + 1 ≤ n * 2 ^ wide + 2 ^ wide)
    (down : n * 2 ^ wide < f.mantissa.value / 2 ^ shifted + 2 ^ wide)
    (half : exact → f.mantissa.value % 2 ^ shifted = 0 ∧
      2 * (f.mantissa.value / 2 ^ shifted) ≤ 2 * (n * 2 ^ wide) + 2 ^ wide ∧
      2 * (n * 2 ^ wide) ≤ 2 * (f.mantissa.value / 2 ^ shifted) + 2 ^ wide)
    (large : place = least ∨ shifted = 0 ∧ precision + wide = 64) :
    Rounded S exact (f.mantissa.value * f.unit) (n * (2 : ℚ) ^ place) := by
  have unit := f.unit_pos
  have power : (0 : ℚ) < 2 ^ shifted := by positivity
  have scale : (0 : ℚ) < f.unit * 2 ^ shifted := by positivity
  have onGrid : Multiple place (n * (2 : ℚ) ^ place) := ⟨n, by norm_num⟩
  refine Rounded.inside positive member format onGrid ?_ (fun exact => ?_) ?_
  · rw [place_distance shift, abs_mul, abs_of_pos scale, place_unit shift, mul_comm]
    refine mul_lt_mul_of_pos_left (abs_lt.mpr ?_) scale
    have upper : ((f.mantissa.value / 2 ^ shifted : Nat) : ℚ) + 1 ≤ n * 2 ^ wide + 2 ^ wide := by
      exact_mod_cast up
    have lower : (n : ℚ) * 2 ^ wide < (f.mantissa.value / 2 ^ shifted : Nat) + 2 ^ wide := by
      exact_mod_cast down
    have floorLow : ((f.mantissa.value / 2 ^ shifted : Nat) : ℚ) ≤ f.mantissa.value / 2 ^ shifted := by
      rw [le_div_iff₀ power]
      exact_mod_cast Nat.div_mul_le_self f.mantissa.value (2 ^ shifted)
    have floorHigh : (f.mantissa.value : ℚ) / 2 ^ shifted <
        (f.mantissa.value / 2 ^ shifted : Nat) + 1 := by
      rw [div_lt_iff₀ power]
      exact_mod_cast Nat.lt_mul_of_div_lt (Nat.lt_succ_self _) (Nat.two_pow_pos _)
    exact ⟨by linarith, by linarith⟩
  · obtain ⟨whole, more, less⟩ := half exact
    rw [place_distance shift, abs_mul, abs_of_pos scale, place_unit shift, mul_comm, mul_div_assoc]
    refine mul_le_mul_of_nonneg_left (abs_le.mpr ?_) scale.le
    rw [exact_quotient whole]
    have upper : 2 * ((f.mantissa.value / 2 ^ shifted : Nat) : ℚ) ≤ 2 * (n * 2 ^ wide) + 2 ^ wide := by
      exact_mod_cast more
    have lower : 2 * ((n : ℚ) * 2 ^ wide) ≤ 2 * (f.mantissa.value / 2 ^ shifted : Nat) + 2 ^ wide := by
      exact_mod_cast less
    exact ⟨by linarith, by linarith⟩
  · refine large.imp_right ?_
    rintro ⟨none, bits⟩
    have leading : (2 : ℚ) ^ 63 ≤ f.mantissa.value := by exact_mod_cast normal
    have split : (2 : ℚ) ^ ((precision : Int) - 1) * 2 ^ wide = 2 ^ 63 := by
      rw [← zpow_natCast, ← zpow_natCast, ← zpow_add₀ (by norm_num)]
      congr 1
      omega
    rw [place_unit shift, none, pow_zero, mul_one, mul_left_comm, mul_comm f.unit, split]
    exact mul_le_mul_of_nonneg_right leading unit.le

end Units

/-! ## Singles -/

section Single

open CompactSingle

def SingleNumbers (s : ℚ) : Prop := ∃ y : SINGLE, Numeric y ∧ SINGLE.value y = s

theorem SINGLE.abs_value (x : SINGLE) : |SINGLE.value x| = SINGLE.magnitude x := by
  have nonneg := SINGLE.magnitude_nonneg x
  unfold SINGLE.value
  split
  next => rw [abs_neg, abs_of_nonneg nonneg]
  next => exact abs_of_nonneg nonneg

variable {s : ℚ} {f : EXTEND}

theorem singleNumbers_format (member : SingleNumbers s) : Signed 24 (-149) s := by
  obtain ⟨y, -, rfl⟩ := member
  unfold Signed
  rw [SINGLE.abs_value, SINGLE.magnitude_eq]
  exact scaled_representable (SINGLE.fraction_lt y) (-149)

theorem singleNumbers_neg (member : SingleNumbers s) : SingleNumbers (-s) := by
  obtain ⟨y, numeric, rfl⟩ := member
  have bound := toNat_lt y
  have flipped : (y + 0x80000000).toNat = (y.toNat + 2 ^ 31) % 2 ^ 32 := toNat_add y _
  have exponent : SINGLE.exponent (y + 0x80000000) = SINGLE.exponent y := by
    unfold SINGLE.exponent
    omega
  have fraction : SINGLE.fraction (y + 0x80000000) = SINGLE.fraction y := by
    unfold SINGLE.fraction
    omega
  have negative : SINGLE.negative (y + 0x80000000) ↔ ¬ SINGLE.negative y := by
    unfold SINGLE.negative
    omega
  refine ⟨y + 0x80000000, ?_, ?_⟩
  · unfold Numeric at numeric ⊢
    rwa [← SINGLE.fields, exponent, fraction, SINGLE.fields]
  · have magnitude : SINGLE.magnitude (y + 0x80000000) = SINGLE.magnitude y := by
      rw [SINGLE.magnitude_eq, SINGLE.magnitude_eq, exponent, fraction]
    unfold SINGLE.value
    rw [magnitude]
    by_cases minus : SINGLE.negative y
    · rw [if_pos minus, if_neg (not_not.mpr minus ∘ negative.mp), neg_neg]
    · rw [if_neg minus, if_pos (negative.mpr minus)]

theorem single_signed_iff {exact : Prop} {sign : UInt16} {v t : ℚ} :
    Rounded SingleNumbers exact (EXTEND.signed sign v) (EXTEND.signed sign t) ↔
      Rounded SingleNumbers exact v t :=
  @Rounded.signed_iff SingleNumbers exact v t (fun _ => singleNumbers_neg) sign

theorem singleNumbers_top : SingleNumbers ((2 : ℚ) ^ (128 : Int)) :=
  ⟨_, sglOver_numeric 0, (sglOver_value 0).trans (if_pos rfl)⟩

theorem singleNumbers_le (member : SingleNumbers s) : s ≤ (2 : ℚ) ^ (128 : Int) := by
  obtain ⟨y, numeric, rfl⟩ := member
  unfold Numeric at numeric
  rw [← SINGLE.fields] at numeric
  refine (le_abs_self _).trans ?_
  rw [SINGLE.abs_value, SINGLE.magnitude_eq]
  have unit : (0 : ℚ) < 2 ^ (-149 : Int) := by positivity
  have most := scaled_le (SINGLE.fraction_lt y) numeric
  have top : (scaled 23 255 0 : ℚ) * (2 : ℚ) ^ (-149 : Int) = (2 : ℚ) ^ (128 : Int) := by
    have power : scaled 23 255 0 = 2 ^ 277 := by
      rw [scaled, if_neg (by decide), Nat.add_zero, ← pow_add]
    rw [power, Nat.cast_pow, Nat.cast_ofNat, ← zpow_natCast, ← zpow_add₀ (by norm_num)]
    norm_num
  rw [← top]
  exact mul_le_mul_of_nonneg_right (by exact_mod_cast most) unit.le

/-- No bit of the mantissa is shifted out on the way to the subnormal singles. -/
def SingleExact (f : EXTEND) : Prop := f.mantissa.value % 2 ^ surplus f = 0

instance (f : EXTEND) : Decidable (SingleExact f) := inferInstanceAs (Decidable (_ = _))

def SingleRounded (f : EXTEND) : Prop :=
  Rounded SingleNumbers (SingleExact f) f.value (SINGLE.value (compactSingle f).1)

/-- The upper word of the mantissa is half way up to an odd single, and the lower
one is not zero. -/
structure TieLost (f : EXTEND) : Prop where
  inside : f.exp ≤ 127
  exact : SingleExact f
  above : 2 ^ 39 < f.mantissa.value / 2 ^ surplus f % 2 ^ 40
  below : f.mantissa.value / 2 ^ surplus f % 2 ^ 40 < 2 ^ 39 + 2 ^ 32
  even : f.mantissa.value / 2 ^ surplus f / 2 ^ 40 % 2 = 0

theorem single_shift (f : EXTEND) : place f = f.exp - 63 + surplus f + (40 : Nat) := by
  unfold place surplus
  omega

theorem roundUpper_word (m : Nat) :
    m + 1 ≤ roundUpper (m / 2 ^ 32) * 2 ^ 40 + 2 ^ 40 ∧
      roundUpper (m / 2 ^ 32) * 2 ^ 40 ≤ m + 2 ^ 39 := by
  have near := roundUpper_near (m / 2 ^ 32)
  omega

theorem single_half (inside : f.exp ≤ 127) (kept : ¬ TieLost f) (exact : SingleExact f) :
    2 * (f.mantissa.value / 2 ^ surplus f) ≤ 2 * (units f * 2 ^ 40) + 2 ^ 40 ∧
      2 * (units f * 2 ^ 40) ≤ 2 * (f.mantissa.value / 2 ^ surplus f) + 2 ^ 40 := by
  have apart : ¬ (2 ^ 39 < f.mantissa.value / 2 ^ surplus f % 2 ^ 40 ∧
      f.mantissa.value / 2 ^ surplus f % 2 ^ 40 < 2 ^ 39 + 2 ^ 32 ∧
      f.mantissa.value / 2 ^ surplus f / 2 ^ 40 % 2 = 0) :=
    fun lost => kept ⟨inside, exact, lost.1, lost.2.1, lost.2.2⟩
  have number : units f = roundUpper (f.mantissa.value / 2 ^ surplus f / 2 ^ 32) := rfl
  unfold roundUpper at number
  split at number <;> omega

theorem singleNumbers_of_place {n : Nat} {q : Int} (fits : n < 2 ^ 24) (low : -149 ≤ q)
    (high : q ≤ 104) (leading : q = -149 ∨ 2 ^ 23 ≤ n) : SingleNumbers (n * (2 : ℚ) ^ q) := by
  have word : (UInt32.ofNat n).toNat = n := by
    rw [UInt32.toNat_ofNat', Nat.mod_eq_of_lt (by omega)]
  by_cases small : n < 2 ^ 23
  · have least : q = -149 := leading.resolve_right (by omega)
    refine ⟨storeSingle 0 0 (UInt32.ofNat n), storeSingle_numeric _ _ le_rfl (by decide), ?_⟩
    rw [storeSingle_value _ _ le_rfl (by decide), word, if_pos rfl, Nat.mod_eq_of_lt small, least]
    rfl
  · have joined : 2 ^ 23 + n % 2 ^ 23 = n := by omega
    refine ⟨storeSingle 0 (q + 150) (UInt32.ofNat n),
      storeSingle_numeric _ _ (by omega) (by omega), ?_⟩
    rw [storeSingle_value _ _ (by omega) (by omega), word, if_neg (by omega), joined,
      Int.add_sub_cancel]
    rfl

theorem signed_member {sign : UInt16} (member : SingleNumbers (EXTEND.signed sign s)) :
    SingleNumbers s := by
  unfold EXTEND.signed at member
  split at member
  next => exact member
  next => simpa using singleNumbers_neg member

variable (normal : f.mantissa.Normalized)
include normal

theorem singleRounded_inside (low : -32768 ≤ f.exp)
    (inside : f.exp ≤ 127) (kept : ¬ TieLost f) : SingleRounded f := by
  obtain ⟨numeric, value⟩ := compactSingle_value normal low inside
  obtain ⟨up, down⟩ := roundUpper_word (f.mantissa.value / 2 ^ surplus f)
  have number : units f = roundUpper (f.mantissa.value / 2 ^ surplus f / 2 ^ 32) := rfl
  have member : SingleNumbers (EXTEND.signed f.sign (units f * (2 : ℚ) ^ place f)) :=
    ⟨_, numeric, value⟩
  unfold SingleRounded
  rw [value, EXTEND.value, single_signed_iff]
  refine rounded_of_units (by decide) (single_shift f) normal (signed_member member)
    (fun s => singleNumbers_format) up (by omega) (fun exact => ⟨exact, single_half inside kept exact⟩) ?_
  unfold place surplus
  omega

/-- A lost tie goes to the lower neighbour, though the upper one is nearer. -/
theorem not_singleRounded_of_tie (low : -32768 ≤ f.exp)
    (lost : TieLost f) : ¬ SingleRounded f := by
  obtain ⟨inside, exact, above, below, even⟩ := lost
  obtain ⟨-, value⟩ := compactSingle_value normal low inside
  have scale : (0 : ℚ) < f.unit * 2 ^ surplus f := by
    have unit := f.unit_pos
    positivity
  have distance := place_distance (n := units f) (single_shift f)
  rw [exact_quotient exact] at distance
  have number : units f = roundUpper (f.mantissa.value / 2 ^ surplus f / 2 ^ 32) := rfl
  have bound := f.mantissa.value_lt
  have shifted : f.mantissa.value / 2 ^ surplus f ≤ f.mantissa.value := Nat.div_le_self _ _
  have large : surplus f = 0 → 2 ^ 63 ≤ f.mantissa.value / 2 ^ surplus f := by
    intro none
    rw [none, pow_zero, Nat.div_one]
    exact normal
  unfold roundUpper at number
  generalize f.mantissa.value / 2 ^ surplus f = m at *
  have rounded : units f = m / 2 ^ 40 := by
    split at number <;> omega
  have member : SingleNumbers (((units f + 1 : Nat) : ℚ) * (2 : ℚ) ^ place f) := by
    have unit : place f = -149 ∨ surplus f = 0 := by
      unfold place surplus
      omega
    refine singleNumbers_of_place (by omega) ?_ ?_ ?_
    · unfold place
      omega
    · unfold place
      omega
    · rcases unit with least | none
      · exact Or.inl least
      · have top := large none
        omega
  have half : (units f : ℚ) * 2 ^ 40 + 2 ^ 39 < m := by
    have less : units f * 2 ^ 40 + 2 ^ 39 < m := by omega
    exact_mod_cast less
  have room : (m : ℚ) < units f * 2 ^ 40 + 2 ^ 40 := by
    have less : m < units f * 2 ^ 40 + 2 ^ 40 := by omega
    exact_mod_cast less
  unfold SingleRounded
  rw [value, EXTEND.value, single_signed_iff]
  intro nearest
  have nearer := nearest.nearest exact _ member
  have next : ((units f + 1 : Nat) : ℚ) * (2 : ℚ) ^ place f - f.mantissa.value * f.unit =
      ((units f : ℚ) * 2 ^ 40 + 2 ^ 40 - m) * (f.unit * 2 ^ surplus f) := by
    have split : ((units f + 1 : Nat) : ℚ) * (2 : ℚ) ^ place f =
        units f * (2 : ℚ) ^ place f + f.unit * 2 ^ surplus f * 2 ^ 40 := by
      rw [← place_unit (single_shift f)]
      push_cast
      ring
    rw [split]
    linear_combination distance
  rw [distance, next, abs_mul, abs_of_pos scale, abs_mul, abs_of_pos scale] at nearer
  have order := le_of_mul_le_mul_right nearer scale
  rw [abs_of_neg (by linarith), abs_of_pos (by linarith)] at order
  linarith

theorem le_magnitude {n : Int} (large : n ≤ f.exp) :
    (2 : ℚ) ^ n ≤ f.mantissa.value * f.unit := by
  have leading : (2 : ℚ) ^ 63 ≤ f.mantissa.value := by exact_mod_cast normal
  calc (2 : ℚ) ^ n ≤ 2 ^ f.exp := zpow_le_zpow_right₀ (by norm_num) large
    _ = 2 ^ 63 * f.unit := by
        rw [EXTEND.unit, ← zpow_natCast, ← zpow_add₀ (by norm_num)]
        congr 1
        omega
    _ ≤ f.mantissa.value * f.unit := mul_le_mul_of_nonneg_right leading f.unit_pos.le

theorem singleRounded_over (large : 128 ≤ f.exp)
    (room : f.exp ≤ 32640) : SingleRounded f := by
  have biased : toShort (f.exp + SGL_BIAS) = f.exp + 127 := by
    unfold SGL_BIAS
    exact toShort_of_range (by omega) (by omega)
  have result : compactSingle f = sglOver f.sign := by
    unfold compactSingle
    rw [if_neg (some_bit normal), biased]
    rw [if_pos (show f.exp + 127 > SGL_MAX by unfold SGL_MAX; omega)]
  unfold SingleRounded
  rw [result, sglOver_value, EXTEND.value, single_signed_iff]
  exact Rounded.beyond singleNumbers_top (fun s => singleNumbers_le) (le_magnitude normal large)

/-- The bias takes the exponent round to the negative ones, and the result is zero. -/
theorem not_singleRounded_of_wrap (large : 32640 < f.exp)
    (short : f.exp < 32768) : ¬ SingleRounded f := by
  have bound := f.mantissa.value_lt
  have biased : toShort (f.exp + SGL_BIAS) = f.exp + 127 - 65536 := by
    unfold SGL_BIAS toShort
    omega
  obtain ⟨exponent, mantissa⟩ :=
    Compact.denormalize_value (show f.exp + 127 - 65536 < 1 by omega) f.mantissa
  have none : (Compact.denormalize (f.exp + 127 - 65536) f.mantissa).2.h32 = 0 := by
    have wide : 2 ^ 64 ≤ 2 ^ (1 - (f.exp + 127 - 65536)).toNat :=
      Nat.pow_le_pow_right (by decide) (by omega)
    rw [Nat.div_eq_of_lt (lt_of_lt_of_le bound wide)] at mantissa
    rw [FltMantissa.value_eq_zero.mp mantissa]
    rfl
  have result : compactSingle f = (storeSingle f.sign 0 0, []) := by
    unfold compactSingle
    rw [if_neg (some_bit normal), biased]
    dsimp only
    rw [if_neg (show ¬ f.exp + 127 - 65536 > SGL_MAX by unfold SGL_MAX; omega),
      if_pos (show f.exp + 127 - 65536 < SGL_MIN by unfold SGL_MIN; omega)]
    rw [exponent, none]
    rfl
  have value : SINGLE.value (storeSingle f.sign 0 0) = EXTEND.signed f.sign 0 := by
    rw [storeSingle_value _ _ le_rfl (by decide), if_pos rfl]
    simp
  unfold SingleRounded
  rw [result, value, EXTEND.value, single_signed_iff]
  exact Rounded.not_zero singleNumbers_top (by positivity) (le_magnitude normal (by omega))

theorem singleRounded_iff (low : -32768 ≤ f.exp)
    (high : f.exp < 32768) : SingleRounded f ↔ f.exp ≤ 32640 ∧ ¬ TieLost f := by
  by_cases wraps : 32640 < f.exp
  · exact iff_of_false (not_singleRounded_of_wrap normal wraps high) (by omega)
  · by_cases large : 128 ≤ f.exp
    · refine iff_of_true (singleRounded_over normal large (by omega)) ⟨by omega, fun lost => ?_⟩
      have inside := lost.inside
      omega
    · by_cases lost : TieLost f
      · exact iff_of_false (not_singleRounded_of_tie normal low lost) (fun both => both.2 lost)
      · exact iff_of_true (singleRounded_inside normal low (by omega) lost) ⟨by omega, lost⟩

end Single

/-! ## Doubles -/

section Double

open Fp.Compact

variable (msl : Bool)

def Numeric (x : DOUBLE) : Prop := words msl x ≤ 2047 * 2 ^ 52

def DoubleNumbers (s : ℚ) : Prop := ∃ y : DOUBLE, Numeric msl y ∧ y.value msl = s

theorem DOUBLE.abs_value (x : DOUBLE) : |x.value msl| = x.magnitude msl := by
  have nonneg := DOUBLE.magnitude_nonneg msl x
  unfold DOUBLE.value
  split
  next => rw [abs_neg, abs_of_nonneg nonneg]
  next => exact abs_of_nonneg nonneg

variable {msl}

theorem numeric_of_finite {x : DOUBLE} (finite : x.Finite msl) : Numeric msl x := by
  have bound := x.fraction_lt msl
  unfold DOUBLE.Finite at finite
  unfold Numeric
  rw [← DOUBLE.fields]
  omega

theorem dblOver_numeric (sign : UInt16) : Numeric msl (dblOver msl sign).1 := by
  obtain ⟨exponent, fraction, -⟩ :=
    storeWords_fields msl sign (w := roundWords 2047 ⟨0, 0⟩) (by decide) (by decide)
  have none : (roundWords 2047 ⟨0, 0⟩).number % 2 ^ 52 = 0 := by decide
  have top : (roundWords 2047 ⟨0, 0⟩).exp = 2047 := by decide
  unfold Numeric
  rw [← DOUBLE.fields]
  change (storeWords msl sign (roundWords 2047 ⟨0, 0⟩)).exponent msl * 2 ^ 52 +
    (storeWords msl sign (roundWords 2047 ⟨0, 0⟩)).fraction msl ≤ _
  omega

variable {s : ℚ} {f : EXTEND}

theorem doubleNumbers_format (member : DoubleNumbers msl s) : Signed 53 (-1074) s := by
  obtain ⟨y, -, rfl⟩ := member
  unfold Signed
  rw [DOUBLE.abs_value, DOUBLE.magnitude_eq]
  exact scaled_representable (y.fraction_lt msl) (-1074)

def flipped (msl : Bool) (y : DOUBLE) : DOUBLE :=
  if msl then ⟨y.d0 + 0x80000000, y.d1⟩ else ⟨y.d0, y.d1 + 0x80000000⟩

theorem flipped_words (y : DOUBLE) :
    (flipped msl y).high msl = y.high msl + 0x80000000 ∧ (flipped msl y).low msl = y.low msl := by
  unfold flipped DOUBLE.high DOUBLE.low
  cases msl <;> simp

theorem doubleNumbers_neg (member : DoubleNumbers msl s) : DoubleNumbers msl (-s) := by
  obtain ⟨y, numeric, rfl⟩ := member
  obtain ⟨high, low⟩ := @flipped_words msl y
  have bound := (y.high msl).toNat_lt
  have word : ((flipped msl y).high msl).toNat = ((y.high msl).toNat + 2 ^ 31) % 2 ^ 32 := by
    rw [high]
    exact toNat_add _ _
  have negative : (flipped msl y).negative msl ↔ ¬ y.negative msl := by
    unfold DOUBLE.negative
    omega
  have same : words msl (flipped msl y) = words msl y := by
    unfold words
    rw [low, word]
    omega
  have magnitude : (flipped msl y).magnitude msl = y.magnitude msl := by
    have exponent : (flipped msl y).exponent msl = y.exponent msl := by
      unfold DOUBLE.exponent
      omega
    have fraction : (flipped msl y).fraction msl = y.fraction msl := by
      unfold DOUBLE.fraction
      rw [low, word]
      omega
    rw [DOUBLE.magnitude_eq, DOUBLE.magnitude_eq, exponent, fraction]
  refine ⟨flipped msl y, ?_, ?_⟩
  · unfold Numeric at numeric ⊢
    rwa [same]
  · unfold DOUBLE.value
    rw [magnitude]
    by_cases minus : y.negative msl
    · rw [if_pos minus, if_neg (not_not.mpr minus ∘ negative.mp), neg_neg]
    · rw [if_neg minus, if_pos (negative.mpr minus)]

theorem double_signed_iff {exact : Prop} {sign : UInt16} {v t : ℚ} :
    Rounded (DoubleNumbers msl) exact (EXTEND.signed sign v) (EXTEND.signed sign t) ↔
      Rounded (DoubleNumbers msl) exact v t :=
  @Rounded.signed_iff (DoubleNumbers msl) exact v t (fun _ => doubleNumbers_neg) sign

theorem doubleNumbers_top : DoubleNumbers msl ((2 : ℚ) ^ (1024 : Int)) :=
  ⟨_, dblOver_numeric 0, (dblOver_value msl 0).trans (if_pos rfl)⟩

theorem doubleNumbers_le (member : DoubleNumbers msl s) : s ≤ (2 : ℚ) ^ (1024 : Int) := by
  obtain ⟨y, numeric, rfl⟩ := member
  unfold Numeric at numeric
  rw [← DOUBLE.fields] at numeric
  refine (le_abs_self _).trans ?_
  rw [DOUBLE.abs_value, DOUBLE.magnitude_eq]
  have unit : (0 : ℚ) < 2 ^ (-1074 : Int) := by positivity
  have most := scaled_le (y.fraction_lt msl) numeric
  have top : (scaled 52 2047 0 : ℚ) * (2 : ℚ) ^ (-1074 : Int) = (2 : ℚ) ^ (1024 : Int) := by
    have power : scaled 52 2047 0 = 2 ^ 2098 := by
      rw [scaled, if_neg (by decide), Nat.add_zero, ← pow_add]
    rw [power, Nat.cast_pow, Nat.cast_ofNat, ← zpow_natCast, ← zpow_add₀ (by norm_num)]
    norm_num
  rw [← top]
  exact mul_le_mul_of_nonneg_right (by exact_mod_cast most) unit.le

/-- No bit of the mantissa is shifted out on the way to the subnormal doubles. -/
def DoubleExact (f : EXTEND) : Prop := f.mantissa.value % 2 ^ surplus f = 0

def DoubleRounded (msl : Bool) (f : EXTEND) : Prop :=
  Rounded (DoubleNumbers msl) (DoubleExact f) f.value ((compact msl f).1.value msl)

theorem double_shift (f : EXTEND) : place f = f.exp - 63 + surplus f + (11 : Nat) := by
  unfold place surplus
  omega

theorem double_signed_member {sign : UInt16} (member : DoubleNumbers msl (EXTEND.signed sign s)) :
    DoubleNumbers msl s := by
  unfold EXTEND.signed at member
  split at member
  next => exact member
  next => simpa using doubleNumbers_neg member

/-- Inside the range or at its end, the value is the rounded one. -/
theorem compact_rounded {f : EXTEND} (normal : f.mantissa.Normalized) (low : -32768 ≤ f.exp)
    (inside : f.exp ≤ 1023) :
    Numeric msl (compact msl f).1 ∧
      (compact msl f).1.value msl = EXTEND.signed f.sign (units f * (2 : ℚ) ^ place f) := by
  by_cases full : f.exp = 1023 ∧ units f = 2 ^ 53
  · have unit : place f = 971 := by
      unfold place
      omega
    rw [compact_over msl normal (by omega) (Or.inr full)]
    refine ⟨dblOver_numeric f.sign, ?_⟩
    have power : ((2 ^ 53 : Nat) : ℚ) * 2 ^ (971 : Int) = (2 : ℚ) ^ (1024 : Int) := by
      rw [Nat.cast_pow, Nat.cast_ofNat, ← zpow_natCast, ← zpow_add₀ (by norm_num)]
      norm_num
    rw [dblOver_value, unit, full.2, power]
  · have most : f.exp = 1023 → units f < 2 ^ 53 := by
      intro last
      have bound : units f ≤ 2 ^ 53 := by
        rw [(units_normal (by omega)).1]
        exact roundEven_le f.mantissa.value_lt
      omega
    obtain ⟨finite, value, -⟩ := compact_value msl normal low inside most
    exact ⟨numeric_of_finite finite, value⟩

variable (normal : f.mantissa.Normalized)
include normal

theorem doubleRounded_inside (low : -32768 ≤ f.exp)
    (inside : f.exp ≤ 1023) : DoubleRounded msl f := by
  obtain ⟨numeric, value⟩ := @compact_rounded msl f normal low inside
  obtain ⟨up, down⟩ := roundEven_near (f.mantissa.value / 2 ^ surplus f)
  have number : units f = roundEven (f.mantissa.value / 2 ^ surplus f) := rfl
  have member : DoubleNumbers msl (EXTEND.signed f.sign (units f * (2 : ℚ) ^ place f)) :=
    ⟨_, numeric, value⟩
  unfold DoubleRounded
  rw [value, EXTEND.value, double_signed_iff]
  refine rounded_of_units (by decide) (double_shift f) normal (double_signed_member member)
    (fun s => doubleNumbers_format) (by omega) (by omega) (fun exact => ⟨exact, by omega, by omega⟩) ?_
  unfold place surplus
  omega

theorem doubleRounded_over (large : 1024 ≤ f.exp)
    (room : f.exp ≤ 31744) : DoubleRounded msl f := by
  unfold DoubleRounded
  rw [compact_over msl normal room (Or.inl large), dblOver_value, EXTEND.value, double_signed_iff]
  exact Rounded.beyond doubleNumbers_top (fun s => doubleNumbers_le) (le_magnitude normal large)

/-- The bias takes the exponent round to the negative ones, and the result is zero. -/
theorem not_doubleRounded_of_wrap (large : 31744 < f.exp)
    (short : f.exp < 32768) : ¬ DoubleRounded msl f := by
  have bound := f.mantissa.value_lt
  have biased : toShort (f.exp + DBL_BIAS) = f.exp + 1023 - 65536 := by
    unfold DBL_BIAS toShort
    omega
  obtain ⟨exponent, mantissa⟩ :=
    denormalize_value (show f.exp + 1023 - 65536 < 1 by omega) f.mantissa
  have none : (denormalize (f.exp + 1023 - 65536) f.mantissa).2 = ⟨0, 0⟩ := by
    have wide : 2 ^ 64 ≤ 2 ^ (1 - (f.exp + 1023 - 65536)).toNat :=
      Nat.pow_le_pow_right (by decide) (by omega)
    rw [Nat.div_eq_of_lt (lt_of_lt_of_le bound wide)] at mantissa
    exact FltMantissa.value_eq_zero.mp mantissa
  have result : compact msl f = (storeWords msl f.sign (roundWords 0 ⟨0, 0⟩), []) := by
    unfold compact
    rw [if_neg (some_bit normal), biased]
    dsimp only
    rw [if_neg (show ¬ f.exp + 1023 - 65536 > DBL_MAX by unfold DBL_MAX; omega),
      if_pos (show f.exp + 1023 - 65536 < DBL_MIN by unfold DBL_MIN; omega)]
    rw [exponent, none]
    rfl
  have number : (roundWords 0 ⟨0, 0⟩).number = 0 := by decide
  have zero : (roundWords 0 ⟨0, 0⟩).exp = 0 := by decide
  have value : (storeWords msl f.sign (roundWords 0 ⟨0, 0⟩)).value msl = EXTEND.signed f.sign 0 := by
    rw [storeWords_number msl f.sign (by omega) (by omega), if_pos zero, number]
    simp
  unfold DoubleRounded
  rw [result, value, EXTEND.value, double_signed_iff]
  exact Rounded.not_zero doubleNumbers_top (by positivity) (le_magnitude normal (by omega))

theorem doubleRounded_iff (low : -32768 ≤ f.exp)
    (high : f.exp < 32768) : DoubleRounded msl f ↔ f.exp ≤ 31744 := by
  by_cases wraps : 31744 < f.exp
  · exact iff_of_false (not_doubleRounded_of_wrap normal wraps high) (by omega)
  · refine iff_of_true ?_ (by omega)
    by_cases large : 1024 ≤ f.exp
    · exact doubleRounded_over normal large (by omega)
    · exact doubleRounded_inside normal low (by omega)

end Double

/-! ## Round trips -/

/-- A normalized mantissa, or the zero with sign and exponent zero. -/
def Canonical (f : EXTEND) : Prop := f.mantissa.Normalized ∨ f = ⟨0, 0, ⟨0, 0⟩⟩

theorem signed_eq_zero {sign : UInt16} {a : ℚ} : EXTEND.signed sign a = 0 ↔ a = 0 := by
  unfold EXTEND.signed
  split
  next => rfl
  next => exact neg_eq_zero

/-- A sign and a magnitude that is not zero are told by the number. -/
theorem signs_of_value {P Q : Prop} [Decidable P] [Decidable Q] {a b : ℚ} (nonneg : 0 ≤ a)
    (nonneg' : 0 ≤ b) (some : b ≠ 0) (same : (if P then -a else a) = if Q then -b else b) :
    (P ↔ Q) ∧ a = b := by
  have positive : 0 < b := lt_of_le_of_ne nonneg' some.symm
  split at same <;> split at same
  next left right => exact ⟨iff_of_true left right, neg_injective same⟩
  next => exfalso; linarith
  next => exfalso; linarith
  next left right => exact ⟨iff_of_false left right, same⟩

theorem DOUBLE.eq_of_value {msl : Bool} {x y : DOUBLE} (some : y.value msl ≠ 0)
    (same : x.value msl = y.value msl) : x = y := by
  have nonzero : y.magnitude msl ≠ 0 := fun none => some (by
    unfold DOUBLE.value
    rw [none]
    simp)
  obtain ⟨signs, magnitudes⟩ := signs_of_value (DOUBLE.magnitude_nonneg msl x)
    (DOUBLE.magnitude_nonneg msl y) nonzero same
  have unit : (2 : ℚ) ^ (-1074 : Int) ≠ 0 := by positivity
  rw [DOUBLE.magnitude_eq, DOUBLE.magnitude_eq, mul_left_inj' unit, Nat.cast_inj,
    scaled_eq_iff (x.fraction_lt msl) (y.fraction_lt msl), DOUBLE.fields, DOUBLE.fields] at magnitudes
  have xHigh := (x.high msl).toNat_lt
  have yHigh := (y.high msl).toNat_lt
  have xLow := (x.low msl).toNat_lt
  have yLow := (y.low msl).toNat_lt
  unfold DOUBLE.negative at signs
  unfold words at magnitudes
  have high : x.high msl = y.high msl := toNat_inj.mp (by omega)
  have low : x.low msl = y.low msl := toNat_inj.mp (by omega)
  unfold DOUBLE.high at high
  unfold DOUBLE.low at low
  obtain ⟨x0, x1⟩ := x
  obtain ⟨y0, y1⟩ := y
  cases msl <;> simp_all

theorem SINGLE.eq_of_value {x y : SINGLE} (some : SINGLE.value y ≠ 0)
    (same : SINGLE.value x = SINGLE.value y) : x = y := by
  have nonzero : SINGLE.magnitude y ≠ 0 := fun none => some (by
    unfold SINGLE.value
    rw [none]
    simp)
  obtain ⟨signs, magnitudes⟩ := signs_of_value (SINGLE.magnitude_nonneg x)
    (SINGLE.magnitude_nonneg y) nonzero same
  have unit : (2 : ℚ) ^ (-149 : Int) ≠ 0 := by positivity
  rw [SINGLE.magnitude_eq, SINGLE.magnitude_eq, mul_left_inj' unit, Nat.cast_inj,
    scaled_eq_iff (SINGLE.fraction_lt x) (SINGLE.fraction_lt y), SINGLE.fields, SINGLE.fields]
      at magnitudes
  have xBound := toNat_lt x
  have yBound := toNat_lt y
  unfold SINGLE.negative at signs
  exact toNat_inj.mp (by omega)

theorem Rounded.eq_of_member {S : ℚ → Prop} {exact : Prop} {v t : ℚ} (rounded : Rounded S exact v t)
    (member : S v) : t = v := by
  obtain ⟨below, greatest⟩ | ⟨above, least⟩ := rounded.neighbour.2
  · exact le_antisymm below (greatest v member le_rfl)
  · exact le_antisymm (least v member le_rfl) above

section DoubleTrip

open Fp.Compact

variable {msl : Bool} {x : DOUBLE}

def NegativeZero (msl : Bool) (x : DOUBLE) : Prop := x.negative msl ∧ x.magnitude msl = 0

theorem value_eq_zero : x.value msl = 0 ↔ x.magnitude msl = 0 := by
  rw [← abs_eq_zero, DOUBLE.abs_value]

theorem compact_extend_nonzero (finite : x.Finite msl) (some : x.value msl ≠ 0) :
    (extend msl x).mantissa.Normalized ∧ (compact msl (extend msl x)).1 = x := by
  have unpacked := extend_unpacked msl finite
  have low := unpacked.low
  have high := unpacked.high
  have normal := unpacked.normalized (mt unpacked.eq_zero some)
  have rounded : DoubleRounded msl (extend msl x) :=
    (doubleRounded_iff normal (by omega) (by omega)).mpr (by omega)
  refine ⟨normal, DOUBLE.eq_of_value some ?_⟩
  unfold DoubleRounded at rounded
  rw [unpacked.value] at rounded
  exact rounded.eq_of_member ⟨x, numeric_of_finite finite, rfl⟩

theorem zero_words (none : x.magnitude msl = 0) :
    x.low msl = 0 ∧ (x.high msl).toNat % 2 ^ 31 = 0 := by
  have empty := (DOUBLE.magnitude_eq_zero msl x).mp none
  unfold words at empty
  refine ⟨toNat_inj.mp ?_, by omega⟩
  rw [UInt32.toNat_zero]
  omega

theorem compact_extend_zero (finite : x.Finite msl) (none : x.magnitude msl = 0) :
    (compact msl (extend msl x)).1 = ⟨0, 0⟩ := by
  have unpacked := extend_unpacked msl finite
  have empty : (extend msl x).mantissa = FltMantissa.zero := by
    refine unpacked.normal.resolve_right fun normal => ?_
    have positive := le_magnitude normal (n := (extend msl x).exp) le_rfl
    have value := unpacked.value
    rw [value_eq_zero.mpr none, EXTEND.value, signed_eq_zero] at value
    have power : (0 : ℚ) < 2 ^ (extend msl x).exp := by positivity
    linarith
  rw [compact_zero msl empty]

/-- The positive zero is unpacked into the canonical one, the negative one keeps
its sign and an exponent. -/
theorem extend_zero_canonical (none : x.magnitude msl = 0) :
    Canonical (extend msl x) ↔ ¬ x.negative msl := by
  obtain ⟨low, high⟩ := zero_words none
  have bound := (x.high msl).toNat_lt
  by_cases negative : x.negative msl
  · have word : x.high msl = 0x80000000 := by
      refine toNat_inj.mp ?_
      unfold DOUBLE.negative at negative
      change (x.high msl).toNat = 2 ^ 31
      omega
    have subnormal : x.exponent msl = 0 := by
      unfold DOUBLE.exponent
      rw [word]
      rfl
    have some : ¬ (x.high msl = 0 ∧ x.low msl = 0) := by
      rw [word]
      exact fun both => absurd both.1 (by decide)
    have sign : unpackedSign msl x = 0x8000 := if_pos negative
    have empty : (⟨((0x80000000 : UInt32) <<< 11 ||| (0 : UInt32) >>> 21 ||| NORMBIT) &&& ~~~NORMBIT,
        (0 : UInt32) <<< 11⟩ : B64) = FltMantissa.zero := by decide
    refine iff_of_false ?_ (not_not.mpr negative)
    rw [extend_subnormal subnormal some, sign, word, low, empty, nrmExt_zero rfl]
    rintro (normal | zero)
    · exact absurd normal (by decide)
    · exact absurd (congrArg EXTEND.sign zero) (by decide)
  · have word : x.high msl = 0 := by
      refine toNat_inj.mp ?_
      unfold DOUBLE.negative at negative
      change (x.high msl).toNat = 0
      omega
    exact iff_of_true (Or.inr (extend_zero word low)) negative

theorem double_round_trip (finite : x.Finite msl) :
    ((compact msl (extend msl x)).1 = x ∨
      (NegativeZero msl x ∧ (compact msl (extend msl x)).1 = ⟨0, 0⟩)) ∧
    (extend msl x).value = x.value msl ∧
    (Canonical (extend msl x) ↔ ¬ NegativeZero msl x) := by
  have value := (extend_unpacked msl finite).value
  by_cases none : x.magnitude msl = 0
  · have packed := compact_extend_zero finite none
    have canonical := extend_zero_canonical none
    refine ⟨?_, value, ?_⟩
    · by_cases negative : x.negative msl
      · exact Or.inr ⟨⟨negative, none⟩, packed⟩
      · left
        obtain ⟨low, high⟩ := zero_words none
        have word : x.high msl = 0 := by
          refine toNat_inj.mp ?_
          unfold DOUBLE.negative at negative
          change (x.high msl).toNat = 0
          omega
        unfold DOUBLE.high at word
        unfold DOUBLE.low at low
        obtain ⟨x0, x1⟩ := x
        cases msl <;> simp_all
    · rw [canonical]
      exact not_congr ⟨fun negative => ⟨negative, none⟩, fun both => both.1⟩
  · obtain ⟨normal, packed⟩ := compact_extend_nonzero finite (mt value_eq_zero.mp none)
    exact ⟨Or.inl packed, value, iff_of_true (Or.inl normal) fun both => none both.2⟩

end DoubleTrip

section SingleTrip

open CompactSingle

variable {x : SINGLE}

theorem single_value_eq_zero : SINGLE.value x = 0 ↔ SINGLE.magnitude x = 0 := by
  rw [← abs_eq_zero, SINGLE.abs_value]

theorem SINGLE.numeric_of_finite (finite : SINGLE.Finite x) : CompactSingle.Numeric x := by
  have bound := SINGLE.fraction_lt x
  unfold SINGLE.Finite at finite
  unfold CompactSingle.Numeric
  rw [← SINGLE.fields]
  omega

/-- What `extend` makes of a single other than zero has no bits below its 24. -/
theorem extendSingle_upper (some : SINGLE.magnitude x ≠ 0) :
    (extendSingle x).mantissa.value / 2 ^ surplus (extendSingle x) % 2 ^ 40 = 0 := by
  by_cases normal : 0 < SINGLE.exponent x
  · have mantissa := SINGLE.leading_set x
    rw [SINGLE.extend_normal normal]
    have none : surplus ⟨SINGLE.unpackedSign x, SINGLE.exponent x - 127, ⟨x <<< 8 ||| NORMBIT, 0⟩⟩ =
        0 := by
      unfold surplus
      dsimp only
      omega
    rw [none, pow_zero, Nat.div_one]
    dsimp only
    omega
  · have subnormal : SINGLE.exponent x = 0 := by omega
    have mantissa := SINGLE.leading_clear x
    have fraction : SINGLE.fraction x ≠ 0 := by
      intro none
      refine some ?_
      rw [SINGLE.magnitude, if_pos subnormal, none]
      simp
    rw [SINGLE.extend_subnormal subnormal fraction]
    generalize (⟨(x <<< 8 ||| NORMBIT) &&& ~~~NORMBIT, 0⟩ : B64) = m at mantissa ⊢
    have nonzero : m ≠ FltMantissa.zero := by
      refine mt FltMantissa.value_eq_zero.mpr ?_
      omega
    obtain ⟨s, -, shifted, -, -, moved⟩ :=
      nrmExt_spec (e := ⟨SINGLE.unpackedSign x, -126, m⟩) nonzero
        (show (-30000 : Int) ≤ -126 by decide) (show (-126 : Int) ≤ 30000 by decide)
    have places : surplus (nrmExt ⟨SINGLE.unpackedSign x, -126, m⟩) = s := by
      unfold surplus
      rw [moved]
      dsimp only
      omega
    rw [shifted, places, mantissa, Nat.mul_div_cancel _ (Nat.two_pow_pos s)]
    exact Nat.mul_mod_left _ _

theorem compactSingle_extend_nonzero (finite : SINGLE.Finite x) (some : SINGLE.value x ≠ 0) :
    (extendSingle x).mantissa.Normalized ∧ (compactSingle (extendSingle x)).1 = x := by
  have unpacked := extendSingle_unpacked finite
  have low := unpacked.low
  have high := unpacked.high
  have upper := extendSingle_upper (mt single_value_eq_zero.mpr some)
  have normal := unpacked.normalized (mt unpacked.eq_zero some)
  have rounded := (singleRounded_iff normal (by omega) (by omega)).mpr
    ⟨by omega, fun lost => by have above := lost.above; omega⟩
  refine ⟨normal, SINGLE.eq_of_value some ?_⟩
  unfold SingleRounded at rounded
  rw [unpacked.value] at rounded
  exact rounded.eq_of_member ⟨x, SINGLE.numeric_of_finite finite, rfl⟩

theorem single_round_trip (finite : SINGLE.Finite x) :
    ((compactSingle (extendSingle x)).1 = x ∨
      (SINGLE.negative x ∧ SINGLE.magnitude x = 0 ∧ (compactSingle (extendSingle x)).1 = 0)) ∧
    (extendSingle x).value = SINGLE.value x ∧ Canonical (extendSingle x) := by
  have value := (extendSingle_unpacked finite).value
  by_cases none : SINGLE.magnitude x = 0
  · have bits := (SINGLE.magnitude_eq_zero x).mp none
    have empty : extendSingle x = ⟨0, 0, ⟨0, 0⟩⟩ := by
      refine SINGLE.extend_zero ?_ ?_
      · unfold SINGLE.exponent
        omega
      · unfold SINGLE.fraction
        omega
    have packed : (compactSingle (extendSingle x)).1 = 0 := by
      rw [empty]
      rfl
    refine ⟨?_, value, Or.inr empty⟩
    by_cases negative : SINGLE.negative x
    · exact Or.inr ⟨negative, none, packed⟩
    · left
      rw [packed]
      unfold SINGLE.negative at negative
      exact toNat_inj.mp (show 0 = UInt32.toNat x by omega)
  · obtain ⟨normal, packed⟩ := compactSingle_extend_nonzero finite (mt single_value_eq_zero.mp none)
    exact ⟨Or.inl packed, value, Or.inl normal⟩

end SingleTrip

open Fp.Compact (compact)
open CompactSingle (compactSingle)

/-- Unpacking and packing are inverse to each other on the finite numbers, and
`extend` gives canonical numbers but for the negative zero of a `DOUBLE`.
Packing rounds every number whose exponent takes the bias to a `DOUBLE`, and to
a `SINGLE` every such number that is not a lost tie. -/
theorem formats_round_trip (msl : Bool) :
    (∀ x : DOUBLE, x.Finite msl →
      ((compact msl (extend msl x)).1 = x ∨
        (NegativeZero msl x ∧ (compact msl (extend msl x)).1 = ⟨0, 0⟩)) ∧
      (extend msl x).value = x.value msl ∧ (Canonical (extend msl x) ↔ ¬ NegativeZero msl x)) ∧
    (∀ x : SINGLE, SINGLE.Finite x →
      ((compactSingle (extendSingle x)).1 = x ∨
        (SINGLE.negative x ∧ SINGLE.magnitude x = 0 ∧ (compactSingle (extendSingle x)).1 = 0)) ∧
      (extendSingle x).value = SINGLE.value x ∧ Canonical (extendSingle x)) ∧
    (∀ f : EXTEND, f.mantissa.Normalized → -32768 ≤ f.exp → f.exp < 32768 →
      (DoubleRounded msl f ↔ f.exp ≤ 31744) ∧
        (SingleRounded f ↔ f.exp ≤ 32640 ∧ ¬ TieLost f)) :=
  ⟨fun _ finite => double_round_trip finite, fun _ finite => single_round_trip finite,
    fun _ normal low high => ⟨doubleRounded_iff normal low high, singleRounded_iff normal low high⟩⟩

/-- On one, on the least subnormal single, and on one and a half. -/
theorem formats_round_trip_one :
    (extend true ⟨0x3FF00000, 0⟩).value = DOUBLE.value true ⟨0x3FF00000, 0⟩ ∧
      (extendSingle 1).value = SINGLE.value 1 ∧ DoubleRounded true ⟨0, 0, ⟨0xC0000000, 0⟩⟩ :=
  ⟨((formats_round_trip true).1 ⟨0x3FF00000, 0⟩ (by decide)).2.1,
    ((formats_round_trip true).2.1 1 (by decide)).2.1,
    ((formats_round_trip true).2.2 ⟨0, 0, ⟨0xC0000000, 0⟩⟩ (by decide) (by decide)
      (by decide)).1.mpr (by decide)⟩

/-- What `extend` makes of the double 1 + 2 ^ -24 + 2 ^ -52. -/
def aboveTie : EXTEND := extend true ⟨0x3FF00000, 0x10000001⟩

/-- It packs into the single 1, though 1 + 2 ^ -23 is nearer. -/
theorem aboveTie_rounds_down :
    ¬ ∀ f : EXTEND, f.mantissa.Normalized → -32768 ≤ f.exp → f.exp < 32768 → SingleRounded f := by
  have exponent : aboveTie.exp = 0 := by decide
  have normal : aboveTie.mantissa.Normalized := by decide
  have lost : TieLost aboveTie :=
    ⟨by decide, by decide, by decide, by decide, by decide⟩
  intro claim
  exact not_singleRounded_of_tie normal (by omega) lost
    (claim aboveTie normal (by omega) (by omega))

end AckFormal.Fp.RoundTrips
