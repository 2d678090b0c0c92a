import AckFormal.Fp.Compact
import AckFormal.Fp.Singles

/-!
# Packing a single

`compact` to a `SINGLE` looks at the upper word of the mantissa only, also when
it rounds: a mantissa whose upper word ends half way between two singles is
rounded to the even one, whatever the lower word holds.
-/

namespace AckFormal.Fp.CompactSingle

open Flt.Mantissa Flt.Number Extended Fp.Compact Singles Lib.Faithful

def SGL_MAX : Int := 254

def SGL_MIN : Int := 1

def SGL_ZERO : UInt32 := 0xffffff80

def SGL_EXACT : UInt32 := 0xff

def SGL_ROUNDUP : UInt32 := 0x80

def SGL_CARRYOUT : UInt32 := 0x01000000

def SGL_MASK : UInt32 := 0x007fffff

def roundSingle (exp : Int) (m1 : UInt32) : Int × UInt32 :=
  let SGL := m1 >>> 8
  if m1 &&& SGL_EXACT > SGL_ROUNDUP ∨
      (m1 &&& SGL_EXACT = SGL_ROUNDUP ∧ m1 &&& (SGL_ROUNDUP <<< 1) ≠ 0) then
    let SGL := SGL + 1
    let exp := if exp = 0 ∧ SGL &&& ~~~SGL_MASK ≠ 0 then toShort (exp + 1) else exp
    if SGL &&& SGL_CARRYOUT ≠ 0 then (toShort (exp + 1), SGL >>> 1) else (exp, SGL)
  else (exp, SGL)

def storeSingle (sign : UInt16) (exp : Int) (SGL : UInt32) : SINGLE :=
  let SGL := SGL &&& SGL_MASK
  let SGL := SGL ||| UInt32.ofNat (exp * 2 ^ 7).toNat <<< 16
  if sign ≠ 0 then SGL ||| CARRYBIT else SGL

/-- The label `sgl_over`, with the rest of the function on a cleared mantissa. -/
def sglOver (sign : UInt16) : SINGLE × List Trap :=
  let w := roundSingle (SGL_MAX + 1) 0
  (storeSingle sign w.1 w.2, [.EFOVFL])

def compactSingle (f : EXTEND) : SINGLE × List Trap :=
  if f.m1 &&& SGL_ZERO = 0 then (0, [])
  else
    let exp := toShort (f.exp + SGL_BIAS)
    if exp > SGL_MAX then sglOver f.sign
    else
      let (exp, m) := if exp < SGL_MIN then denormalize exp f.mantissa else (exp, f.mantissa)
      let w := roundSingle exp m.h32
      if w.1 > SGL_MAX then sglOver f.sign else (storeSingle f.sign w.1 w.2, [])

/-! ## Rounding -/

def roundUpper (h : Nat) : Nat :=
  h / 2 ^ 8 + if 2 ^ 7 < h % 2 ^ 8 ∨ (h % 2 ^ 8 = 2 ^ 7 ∧ h / 2 ^ 8 % 2 = 1) then 1 else 0

theorem roundUpper_near (h : Nat) :
    h ≤ roundUpper h * 2 ^ 8 + 2 ^ 7 ∧ roundUpper h * 2 ^ 8 ≤ h + 2 ^ 7 := by
  unfold roundUpper
  split <;> omega

theorem rounds_up (m1 : UInt32) :
    (m1 &&& SGL_EXACT > SGL_ROUNDUP ∨
        (m1 &&& SGL_EXACT = SGL_ROUNDUP ∧ m1 &&& (SGL_ROUNDUP <<< 1) ≠ 0)) ↔
      (2 ^ 7 < m1.toNat % 2 ^ 8 ∨ (m1.toNat % 2 ^ 8 = 2 ^ 7 ∧ m1.toNat / 2 ^ 8 % 2 = 1)) := by
  have rest : (m1 &&& SGL_EXACT).toNat = m1.toNat % 2 ^ 8 := by
    have mask : SGL_EXACT.toNat = 2 ^ 8 - 1 := rfl
    rw [UInt32.toNat_and, mask, Nat.and_two_pow_sub_one_eq_mod]
  have half : SGL_ROUNDUP.toNat = 2 ^ 7 := rfl
  have odd : m1 &&& (SGL_ROUNDUP <<< 1) = 0 ↔ m1.toNat / 2 ^ 8 % 2 = 0 := by
    rw [UInt32.and_comm, mask_and_eq_zero (k := 8) rfl]
  rw [gt_iff_lt, UInt32.lt_iff_toNat_lt, rest, half, ← UInt32.toNat_inj, rest, half, ne_eq, odd]
  omega

theorem above_mask (w : UInt32) : w &&& ~~~SGL_MASK = 0 ↔ w.toNat < 2 ^ 23 :=
  above_bits (by decide)

theorem next_word (m1 : UInt32) :
    (m1 >>> 8).toNat = m1.toNat / 2 ^ 8 ∧ (m1 >>> 8 + 1).toNat = m1.toNat / 2 ^ 8 + 1 := by
  have bound := m1.toNat_lt
  have word : (m1 >>> 8).toNat = m1.toNat / 2 ^ 8 :=
    toNat_shiftRight_ofNat m1 (n := 8) (by decide)
  refine ⟨word, ?_⟩
  rw [UInt32.toNat_add, word]
  exact Nat.mod_eq_of_lt (show m1.toNat / 2 ^ 8 + 1 < 2 ^ 32 by omega)

theorem carry_word (w : UInt32) :
    w &&& SGL_CARRYOUT = 0 ↔ w.toNat / 2 ^ 24 % 2 = 0 := by
  rw [UInt32.and_comm, mask_and_eq_zero (k := 24) rfl]

theorem roundSingle_normal (exp : Int) (m1 : UInt32) (normal : exp ≠ 0) :
    (roundUpper m1.toNat < 2 ^ 24 →
      (roundSingle exp m1).2.toNat = roundUpper m1.toNat ∧ (roundSingle exp m1).1 = exp) ∧
    (roundUpper m1.toNat = 2 ^ 24 →
      (roundSingle exp m1).2.toNat = 2 ^ 23 ∧ (roundSingle exp m1).1 = toShort (exp + 1)) := by
  have bound := m1.toNat_lt
  obtain ⟨word, next⟩ := next_word m1
  have carry := carry_word (m1 >>> 8 + 1)
  have halved : ((m1 >>> 8 + 1) >>> 1).toNat = (m1 >>> 8 + 1).toNat / 2 ^ 1 :=
    toNat_shiftRight_ofNat (m1 >>> 8 + 1) (n := 1) (by decide)
  unfold roundSingle roundUpper
  simp only [rounds_up m1]
  split
  next =>
    have kept : ¬ (exp = 0 ∧ (m1 >>> 8 + 1) &&& ~~~SGL_MASK ≠ 0) := fun both => normal both.1
    rw [if_neg kept]
    refine ⟨fun small => ?_, fun full => ?_⟩
    · rw [if_neg (not_not.mpr (carry.mpr (by omega)))]
      exact ⟨next, rfl⟩
    · rw [if_pos (mt carry.mp (by omega))]
      exact ⟨by dsimp only; omega, rfl⟩
  next =>
    exact ⟨fun _ => ⟨word, rfl⟩, fun full => by omega⟩

theorem roundSingle_subnormal (m1 : UInt32) (small : m1.toNat < 2 ^ 31) :
    (roundSingle 0 m1).2.toNat = roundUpper m1.toNat ∧
      (roundSingle 0 m1).1 = if roundUpper m1.toNat = 2 ^ 23 then 1 else 0 := by
  obtain ⟨word, next⟩ := next_word m1
  have carry := carry_word (m1 >>> 8 + 1)
  have above := above_mask (m1 >>> 8 + 1)
  unfold roundSingle roundUpper
  simp only [rounds_up m1]
  split
  next =>
    rw [if_neg (not_not.mpr (carry.mpr (by omega)))]
    refine ⟨next, ?_⟩
    by_cases top : m1.toNat / 2 ^ 8 + 1 = 2 ^ 23
    · rw [if_pos ⟨trivial, mt above.mp (by omega)⟩, if_pos top]
      rfl
    · rw [if_neg (fun both => both.2 (above.mpr (by omega))), if_neg top]
  next =>
    refine ⟨word, (if_neg ?_).symm⟩
    omega

/-! ## Storing -/

section

variable (sign : UInt16) {exp : Int} (w : UInt32) (low : 0 ≤ exp) (high : exp ≤ 255)
include sign w low high

/-- The parts of the packed word are those that were stored. -/
theorem storeSingle_fields :
    (SINGLE.exponent (storeSingle sign exp w) : Int) = exp ∧
      SINGLE.fraction (storeSingle sign exp w) = w.toNat % 2 ^ 23 ∧
      (SINGLE.negative (storeSingle sign exp w) ↔ sign ≠ 0) := by
  have masked : (w &&& SGL_MASK).toNat = w.toNat % 2 ^ 23 := by
    have mask : SGL_MASK.toNat = 2 ^ 23 - 1 := rfl
    rw [UInt32.toNat_and, mask, Nat.and_two_pow_sub_one_eq_mod]
  have placed : (UInt32.ofNat (exp * 2 ^ 7).toNat <<< 16).toNat = exp.toNat * 2 ^ 23 := by
    have moved := toNat_shiftLeft_ofNat (UInt32.ofNat (exp * 2 ^ 7).toNat) (n := 16) (by decide)
    rw [UInt32.toNat_ofNat'] at moved
    refine moved.trans ?_
    omega
  have unsigned : (w &&& SGL_MASK ||| UInt32.ofNat (exp * 2 ^ 7).toNat <<< 16).toNat =
      w.toNat % 2 ^ 23 + exp.toNat * 2 ^ 23 := by
    rw [UInt32.toNat_or, masked, placed]
    exact or_eq_add_of_lt (Nat.mod_lt _ (by decide))
  have stored : (storeSingle sign exp w).toNat =
      w.toNat % 2 ^ 23 + exp.toNat * 2 ^ 23 + if sign ≠ 0 then 2 ^ 31 else 0 := by
    have same : CARRYBIT = NORMBIT := rfl
    unfold storeSingle
    split
    next =>
      rw [same, or_normbit, unsigned]
      omega
    next => rw [unsigned, Nat.add_zero]
  unfold SINGLE.exponent SINGLE.fraction SINGLE.negative
  rw [stored]
  refine ⟨?_, ?_, ?_⟩
  · split <;> omega
  · split <;> omega
  · split
    next set => exact ⟨fun _ => set, fun _ => by omega⟩
    next clear => exact ⟨fun large => by omega, fun set => absurd set clear⟩

/-- The value of a stored single; that of an infinity is one step beyond the
largest finite number. -/
theorem storeSingle_value :
    SINGLE.value (storeSingle sign exp w) = EXTEND.signed sign
      (if exp = 0 then (w.toNat % 2 ^ 23 : Nat) * (2 : ℚ) ^ (-149 : Int)
        else (2 ^ 23 + w.toNat % 2 ^ 23 : Nat) * (2 : ℚ) ^ (exp - 150)) := by
  obtain ⟨exponent, fraction, negative⟩ := storeSingle_fields sign w low high
  have zero : SINGLE.exponent (storeSingle sign exp w) = 0 ↔ exp = 0 := by omega
  unfold SINGLE.value SINGLE.magnitude EXTEND.signed
  simp only [negative, fraction, exponent, zero]
  by_cases positive : sign = 0
  · rw [if_neg (not_not.mpr positive), if_pos positive]
  · rw [if_pos positive, if_neg positive]

end

/-! ## The result -/

def Numeric (x : SINGLE) : Prop := x.toNat % 2 ^ 31 ≤ 255 * 2 ^ 23

theorem storeSingle_numeric (sign : UInt16) {exp : Int} (w : UInt32) (low : 0 ≤ exp)
    (high : exp ≤ 254) : Numeric (storeSingle sign exp w) := by
  obtain ⟨exponent, fraction, -⟩ := storeSingle_fields sign w low (by omega)
  unfold Numeric
  rw [← SINGLE.fields]
  omega

theorem sglOver_numeric (sign : UInt16) : Numeric (sglOver sign).1 := by
  obtain ⟨exponent, fraction, -⟩ :=
    @storeSingle_fields sign 255 (roundSingle 255 0).2 (by decide) (by decide)
  have none : (roundSingle 255 0).2.toNat % 2 ^ 23 = 0 := by decide
  unfold Numeric
  rw [← SINGLE.fields]
  change SINGLE.exponent (storeSingle sign 255 (roundSingle 255 0).2) * 2 ^ 23 +
    SINGLE.fraction (storeSingle sign 255 (roundSingle 255 0).2) ≤ _
  omega

theorem sglOver_value (sign : UInt16) :
    SINGLE.value (sglOver sign).1 = EXTEND.signed sign ((2 : ℚ) ^ (128 : Int)) := by
  have none : (roundSingle 255 0).2.toNat % 2 ^ 23 = 0 := by decide
  refine (@storeSingle_value sign 255 (roundSingle 255 0).2 (by decide) (by decide)).trans ?_
  rw [none, if_neg (by decide)]
  norm_num

/-- How many bits below 2 ^ -149 the upper word of a small number has too many. -/
def surplus (f : EXTEND) : Nat := (-126 - f.exp).toNat

def units (f : EXTEND) : Nat := roundUpper (f.mantissa.value / 2 ^ surplus f / 2 ^ 32)

def place (f : EXTEND) : Int := max (f.exp + 127) 1 - 150

theorem upper_word (m : B64) : m.h32.toNat = m.value / 2 ^ 32 := by
  have low := m.l32.toNat_lt
  unfold FltMantissa.value
  omega

theorem some_bit {m : B64} (normal : m.Normalized) : ¬ m.h32 &&& SGL_ZERO = 0 := by
  intro empty
  have high := FltMantissa.normalized_iff_high.mp normal
  have bits := (above_bits (k := 7) (by decide)).mp empty
  omega

/-- What `compact` makes of a number inside the range, or of one that rounds up
to the end of it. -/
theorem compactSingle_value {f : EXTEND} (normal : f.mantissa.Normalized) (low : -32768 ≤ f.exp)
    (high : f.exp ≤ 127) :
    Numeric (compactSingle f).1 ∧
      SINGLE.value (compactSingle f).1 = EXTEND.signed f.sign (units f * (2 : ℚ) ^ place f) := by
  have bound := f.mantissa.value_lt
  have biased : toShort (f.exp + SGL_BIAS) = f.exp + 127 := by
    unfold SGL_BIAS
    exact toShort_of_range (by omega) (by omega)
  unfold compactSingle
  rw [if_neg (some_bit normal), biased]
  dsimp only
  rw [if_neg (show ¬ f.exp + 127 > SGL_MAX by unfold SGL_MAX; omega)]
  by_cases small : f.exp + 127 < SGL_MIN
  · -- below the normalized singles the unit is the least one
    have below : f.exp + 127 < 1 := small
    have count : (1 - (f.exp + 127)).toNat = surplus f := by
      unfold surplus
      omega
    obtain ⟨exponent, mantissa⟩ := denormalize_value below f.mantissa
    rw [count] at mantissa
    have upper := upper_word (denormalize (f.exp + 127) f.mantissa).2
    rw [mantissa] at upper
    have half : (denormalize (f.exp + 127) f.mantissa).2.h32.toNat < 2 ^ 31 := by
      have positive : 1 ≤ surplus f := by
        omega
      have shifted : f.mantissa.value / 2 ^ surplus f ≤ f.mantissa.value / 2 ^ 1 :=
        Nat.div_le_div_left (Nat.pow_le_pow_right (by decide) positive) (by decide)
      omega
    obtain ⟨number, stored⟩ := roundSingle_subnormal _ half
    have full := (roundUpper_near (denormalize (f.exp + 127) f.mantissa).2.h32.toNat).2
    rw [upper] at number stored full half
    change _ = units f at number
    change _ = if units f = 2 ^ 23 then 1 else 0 at stored
    change units f * 2 ^ 8 ≤ _ at full
    have unit : place f = -149 := by
      unfold place
      omega
    rw [if_pos small]
    rw [exponent]
    generalize roundSingle 0 (denormalize (f.exp + 127) f.mantissa).2.h32 = w at number stored ⊢
    rw [if_neg (show ¬ w.1 > SGL_MAX by unfold SGL_MAX; split at stored <;> omega)]
    have value := @storeSingle_value f.sign w.1 w.2 (by split at stored <;> omega)
      (by split at stored <;> omega)
    refine ⟨storeSingle_numeric f.sign w.2 (by split at stored <;> omega)
      (by split at stored <;> omega), ?_⟩
    rw [value, number, unit]
    by_cases top : units f = 2 ^ 23
    · rw [if_pos top] at stored
      rw [stored, top]
      norm_num
    · rw [if_neg top] at stored
      rw [if_pos stored, Nat.mod_eq_of_lt (by omega)]
  · have inside : ¬ f.exp + 127 < 1 := small
    have none : surplus f = 0 := by
      unfold surplus
      omega
    have unit : place f = f.exp + 127 - 150 := by
      unfold place
      omega
    have number : units f = roundUpper f.mantissa.h32.toNat := by
      unfold units
      rw [none, pow_zero, Nat.div_one, upper_word]
    have leading : 2 ^ 31 ≤ f.mantissa.h32.toNat := FltMantissa.normalized_iff_high.mp normal
    have word := f.mantissa.h32.toNat_lt
    have near := roundUpper_near f.mantissa.h32.toNat
    obtain ⟨fits, carries⟩ := roundSingle_normal (f.exp + 127) f.mantissa.h32 (by omega)
    rw [← number] at fits carries near
    rw [if_neg small]
    generalize roundSingle (f.exp + 127) f.mantissa.h32 = w at fits carries ⊢
    by_cases top : units f = 2 ^ 24
    · -- the carry makes the mantissa a power of two
      obtain ⟨words, exponent⟩ := carries top
      rw [toShort_of_range (by omega) (by omega)] at exponent
      have step : f.exp + 127 + 1 - 150 = f.exp + 127 - 150 + 1 := by omega
      by_cases last : f.exp = 127
      · rw [if_pos (show w.1 > SGL_MAX by unfold SGL_MAX; omega)]
        refine ⟨sglOver_numeric f.sign, ?_⟩
        rw [sglOver_value, top, unit, last]
        norm_num
      · rw [if_neg (show ¬ w.1 > SGL_MAX by unfold SGL_MAX; omega)]
        refine ⟨storeSingle_numeric f.sign w.2 (by omega) (by omega), ?_⟩
        rw [storeSingle_value f.sign w.2 (by omega) (by omega), if_neg (by omega), words, exponent,
          top, unit, step, zpow_add₀ (by norm_num)]
        ring_nf
    · have less : units f < 2 ^ 24 := by omega
      obtain ⟨words, exponent⟩ := fits less
      rw [if_neg (show ¬ w.1 > SGL_MAX by unfold SGL_MAX; omega)]
      have joined : 2 ^ 23 + units f % 2 ^ 23 = units f := by omega
      refine ⟨storeSingle_numeric f.sign w.2 (by omega) (by omega), ?_⟩
      rw [storeSingle_value f.sign w.2 (by omega) (by omega), if_neg (by omega), words, joined,
        exponent, unit]

end AckFormal.Fp.CompactSingle
