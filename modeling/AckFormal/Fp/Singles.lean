import AckFormal.Fp.Extended

/-!
# Singles and the order of the formats

A `SINGLE` is one `unsigned long`.  Both formats are instances of one encoding,
an exponent field above a fraction field; the number that both fields make up
orders the magnitudes.
-/

namespace AckFormal.Fp.Singles

open Flt.Mantissa Flt.Number Extended

/-! ## Exponent and fraction fields -/

/-- The magnitude with exponent field `e` and `p` bits of fraction `f`, in units
of the least subnormal number. -/
def scaled (p e f : Nat) : Nat := (if e = 0 then f else 2 ^ p + f) * 2 ^ (e - 1)

section Scaled

variable {p e e' f f' : Nat}

theorem scaled_lt (bound : f < 2 ^ p) : scaled p e f < 2 ^ (p + e) := by
  unfold scaled
  cases e with
  | zero => simpa using bound
  | succ e =>
    rw [if_neg (Nat.succ_ne_zero e), Nat.add_sub_cancel, show p + (e + 1) = p + 1 + e by omega,
      pow_add 2 (p + 1)]
    refine Nat.mul_lt_mul_of_pos_right ?_ (Nat.two_pow_pos e)
    omega

theorem le_scaled (positive : 0 < e) : 2 ^ (p + (e - 1)) ≤ scaled p e f := by
  unfold scaled
  rw [if_neg (by omega), pow_add]
  exact Nat.mul_le_mul_right _ (Nat.le_add_right _ _)

theorem scaled_lt_of_exponent (bound : f < 2 ^ p) (less : e < e') :
    scaled p e f < scaled p e' f' := by
  refine lt_of_lt_of_le (scaled_lt bound) (le_trans ?_ (le_scaled (by omega)))
  exact Nat.pow_le_pow_right (by decide) (by omega)

theorem scaled_lt_of_fraction (less : f < f') : scaled p e f < scaled p e f' := by
  refine Nat.mul_lt_mul_of_pos_right ?_ (Nat.two_pow_pos _)
  split <;> omega

theorem scaled_lt_iff (bound : f < 2 ^ p) (bound' : f' < 2 ^ p) :
    scaled p e f < scaled p e' f' ↔ e * 2 ^ p + f < e' * 2 ^ p + f' := by
  rcases lt_trichotomy e e' with less | same | greater
  · have step : (e + 1) * 2 ^ p ≤ e' * 2 ^ p := Nat.mul_le_mul_right _ less
    rw [Nat.succ_mul] at step
    exact iff_of_true (scaled_lt_of_exponent bound less) (by omega)
  · subst same
    rcases lt_trichotomy f f' with below | same | above
    · exact iff_of_true (scaled_lt_of_fraction below) (by omega)
    · subst same
      exact iff_of_false (lt_irrefl _) (lt_irrefl _)
    · exact iff_of_false (not_lt.mpr (scaled_lt_of_fraction above).le) (by omega)
  · have step : (e' + 1) * 2 ^ p ≤ e * 2 ^ p := Nat.mul_le_mul_right _ greater
    rw [Nat.succ_mul] at step
    exact iff_of_false (not_lt.mpr (scaled_lt_of_exponent bound' greater).le) (by omega)

theorem scaled_eq_iff (bound : f < 2 ^ p) (bound' : f' < 2 ^ p) :
    scaled p e f = scaled p e' f' ↔ e * 2 ^ p + f = e' * 2 ^ p + f' := by
  have less : scaled p e f < scaled p e' f' ↔ e * 2 ^ p + f < e' * 2 ^ p + f' :=
    scaled_lt_iff bound bound'
  have greater : scaled p e' f' < scaled p e f ↔ e' * 2 ^ p + f' < e * 2 ^ p + f :=
    scaled_lt_iff bound' bound
  omega

end Scaled

/-! ## Singles -/

abbrev SINGLE := UInt32

namespace SINGLE

def exponent (x : SINGLE) : Nat := x.toNat / 2 ^ 23 % 2 ^ 8

def fraction (x : SINGLE) : Nat := x.toNat % 2 ^ 23

def negative (x : SINGLE) : Prop := 2 ^ 31 ≤ x.toNat

instance (x : SINGLE) : Decidable (negative x) :=
  inferInstanceAs (Decidable (_ ≤ _))

def Finite (x : SINGLE) : Prop := exponent x < 255

instance (x : SINGLE) : Decidable (Finite x) :=
  inferInstanceAs (Decidable (_ < _))

def magnitude (x : SINGLE) : ℚ :=
  if exponent x = 0 then fraction x * (2 : ℚ) ^ (-149 : Int)
  else (2 ^ 23 + fraction x : Nat) * (2 : ℚ) ^ ((exponent x : Int) - 150)

def value (x : SINGLE) : ℚ := if negative x then -magnitude x else magnitude x

theorem fraction_lt (x : SINGLE) : fraction x < 2 ^ 23 := Nat.mod_lt _ (Nat.two_pow_pos 23)

theorem fields (x : SINGLE) : exponent x * 2 ^ 23 + fraction x = x.toNat % 2 ^ 31 := by
  unfold exponent fraction
  omega

end SINGLE

/-- A magnitude in units of the least subnormal number. -/
theorem scaled_magnitude (p e f : Nat) (least : Int) :
    (if e = 0 then (f : ℚ) * 2 ^ least else (2 ^ p + f : Nat) * (2 : ℚ) ^ ((e : Int) + least - 1)) =
      scaled p e f * (2 : ℚ) ^ least := by
  unfold scaled
  cases e with
  | zero => simp
  | succ e =>
    have exponent : ((e + 1 : Nat) : Int) + least - 1 = (e : Int) + least := by omega
    rw [if_neg (Nat.succ_ne_zero e), if_neg (Nat.succ_ne_zero e), exponent, zpow_add₀ (by norm_num),
      zpow_natCast, Nat.add_sub_cancel]
    push_cast
    ring

theorem SINGLE.magnitude_eq (x : SINGLE) :
    SINGLE.magnitude x = scaled 23 (SINGLE.exponent x) (SINGLE.fraction x) * (2 : ℚ) ^ (-149 : Int) := by
  rw [← scaled_magnitude, SINGLE.magnitude]
  congr 3
  omega

/-! ## Unpacking -/

def SGL_BIAS : Int := 127

def extendSingle (src : SINGLE) : EXTEND :=
  let half := (src >>> 16).toUInt16
  let sign := half &&& 0x8000
  let exp := ((half ^^^ sign) >>> 7).toNat
  let leadbit := decide (exp > 0)
  let exp : Int := if exp > 0 then exp else exp + 1
  -- here the sign is shifted out before the test for zero
  let m1 := src <<< 8
  if exp = 1 ∧ m1 = 0 then ⟨0, 0, ⟨0, 0⟩⟩
  else
    let exp := exp - SGL_BIAS
    let m1 := m1 ||| NORMBIT
    if leadbit then ⟨sign, exp, ⟨m1, 0⟩⟩
    else nrmExt ⟨sign, exp, ⟨m1 &&& ~~~NORMBIT, 0⟩⟩

namespace SINGLE

section

variable (x : SINGLE)
include x

theorem half_toNat : (x >>> 16).toUInt16.toNat = x.toNat / 2 ^ 16 := by
  have bound := UInt32.toNat_lt x
  rw [UInt32.toNat_toUInt16,
    show (x >>> 16).toNat = _ from toNat_shiftRight_ofNat x (n := 16) (by decide)]
  omega

theorem exponent_field :
    (let half := (x >>> 16).toUInt16
     ((half ^^^ (half &&& 0x8000)) >>> 7).toNat) = exponent x := by
  rw [UInt16.toNat_shiftRight, xor_signBit, half_toNat]
  change _ >>> 7 = _
  unfold exponent
  omega

theorem sign_field :
    (x >>> 16).toUInt16 &&& 0x8000 = if negative x then 0x8000 else 0 := by
  have small : (x >>> 16).toUInt16.toNat < 2 ^ 15 ↔ ¬ negative x := by
    rw [half_toNat]
    unfold negative
    omega
  rw [signBit]
  by_cases minus : negative x
  · rw [if_neg (not_not.mpr minus ∘ small.mp), if_pos minus]
  · rw [if_pos (small.mpr minus), if_neg minus]

theorem shifted_toNat : (x <<< 8).toNat = x.toNat % 2 ^ 24 * 2 ^ 8 :=
  toNat_shiftLeft_ofNat x (n := 8) (by decide)

theorem leading_set :
    (⟨x <<< 8 ||| NORMBIT, 0⟩ : B64).value = 2 ^ 63 + fraction x * 2 ^ 40 := by
  unfold FltMantissa.value fraction
  rw [or_normbit, shifted_toNat, UInt32.toNat_zero]
  omega

theorem leading_clear :
    (⟨(x <<< 8 ||| NORMBIT) &&& ~~~NORMBIT, 0⟩ : B64).value = fraction x * 2 ^ 40 := by
  unfold FltMantissa.value fraction
  rw [or_and_normbit, shifted_toNat, UInt32.toNat_zero]
  omega

def unpackedSign (x : SINGLE) : UInt16 := if negative x then 0x8000 else 0

theorem signed_unpackedSign (a : ℚ) :
    EXTEND.signed (unpackedSign x) a = if negative x then -a else a := by
  unfold EXTEND.signed unpackedSign
  split <;> simp

theorem unpackedSign_cases : unpackedSign x = 0 ∨ unpackedSign x = 0x8000 := by
  unfold unpackedSign
  split <;> simp

end

theorem extend_normal {x : SINGLE} (normal : 0 < exponent x) :
    extendSingle x = ⟨unpackedSign x, exponent x - 127, ⟨x <<< 8 ||| NORMBIT, 0⟩⟩ := by
  have field := exponent_field x
  have some : ¬ ((exponent x : Int) = 1 ∧ x <<< 8 = 0) := by
    rintro ⟨one, empty⟩
    have bits := congrArg UInt32.toNat empty
    rw [shifted_toNat, UInt32.toNat_zero] at bits
    unfold exponent at one
    omega
  unfold extendSingle
  simp only [field, normal, some, if_true]
  rw [sign_field]
  rfl

theorem extend_zero {x : SINGLE} (subnormal : exponent x = 0) (none : fraction x = 0) :
    extendSingle x = ⟨0, 0, ⟨0, 0⟩⟩ := by
  have field := exponent_field x
  have empty : x <<< 8 = 0 := by
    refine UInt32.toNat_inj.mp ?_
    rw [shifted_toNat, UInt32.toNat_zero]
    unfold exponent at subnormal
    unfold fraction at none
    omega
  unfold extendSingle
  simp [field, subnormal, empty]

theorem extend_subnormal {x : SINGLE} (subnormal : exponent x = 0) (some : fraction x ≠ 0) :
    extendSingle x =
      nrmExt ⟨unpackedSign x, -126, ⟨(x <<< 8 ||| NORMBIT) &&& ~~~NORMBIT, 0⟩⟩ := by
  have field := exponent_field x
  have bits : x <<< 8 ≠ 0 := by
    intro empty
    have none := congrArg UInt32.toNat empty
    rw [shifted_toNat, UInt32.toNat_zero] at none
    unfold fraction at some
    omega
  unfold extendSingle
  simp only [field, gt_iff_lt, subnormal, bits, lt_irrefl, if_false, decide_false, and_false,
    Bool.false_eq_true]
  rw [sign_field]
  rfl

end SINGLE

theorem extendSingle_unpacked {x : SINGLE} (finite : SINGLE.Finite x) :
    Unpacked (extendSingle x) (SINGLE.value x) := by
  unfold SINGLE.Finite at finite
  have cases := SINGLE.unpackedSign_cases x
  by_cases normal : 0 < SINGLE.exponent x
  · have mantissa := SINGLE.leading_set x
    have value : SINGLE.value x = EXTEND.signed (SINGLE.unpackedSign x)
        ((2 ^ 23 + SINGLE.fraction x : Nat) * (2 : ℚ) ^ ((SINGLE.exponent x : Int) - 127 - (23 : Nat))) := by
      rw [SINGLE.signed_unpackedSign, SINGLE.value, SINGLE.magnitude, if_neg normal.ne',
        show (SINGLE.exponent x : Int) - 127 - (23 : Nat) = SINGLE.exponent x - 150 by omega]
    rw [SINGLE.extend_normal normal, value]
    exact Unpacked.ofNormal (by decide) (mantissa.trans (by ring)) (by omega) (by omega) cases
  · have subnormal : SINGLE.exponent x = 0 := by omega
    have mantissa := SINGLE.leading_clear x
    have value : SINGLE.value x = EXTEND.signed (SINGLE.unpackedSign x)
        (SINGLE.fraction x * (2 : ℚ) ^ (-149 : Int)) := by
      rw [SINGLE.signed_unpackedSign, SINGLE.value, SINGLE.magnitude, if_pos subnormal]
    by_cases none : SINGLE.fraction x = 0
    · have noValue : SINGLE.value x = 0 := by
        rw [value, none]
        simp [EXTEND.signed]
      rw [SINGLE.extend_zero subnormal none, noValue]
      exact Unpacked.ofZero (by decide) (by decide) (Or.inl rfl)
    · rw [SINGLE.extend_subnormal subnormal none, value]
      exact Unpacked.ofSubnormal (show 23 ≤ 52 by decide) none mantissa (show (-1037 : Int) ≤ -126 by decide)
        (show (-126 : Int) ≤ 1023 by decide) cases

end AckFormal.Fp.Singles
