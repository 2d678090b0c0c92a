import AckFormal.ConFloat.Encode
import AckFormal.Flt.Products

/-!
# Constants and the nearest IEEE number

The bytes of `float_cst` are decoded again and compared with the IEEE number
nearest to the value that `flt_str2flt` delivers, half way up.  The mantissa is
rounded before it is shifted for a subnormal result, and the shift truncates:
this loses a carry exactly when the bits that the shift drops start with a one
and are not all ones down to the place where the rounding was done.
-/

namespace AckFormal.ConFloat.Nearest

open Flt Mantissa Number FltArith Str2Flt Encode Lib.Rounding
open Products (magnitude)

/-! ## IEEE numbers -/

structure Format where
  precision : Nat
  bias : Int
  narrow : 2 ≤ precision ∧ precision < 64
  biased : 2 ≤ bias

namespace Format

def single : Format := ⟨24, 127, by decide, by decide⟩

def double : Format := ⟨53, 1023, by decide, by decide⟩

def top (f : Format) : Int := 2 * f.bias + 1

/-- The exponent of the last place of subnormal numbers. -/
def least (f : Format) : Int := 2 - f.bias - f.precision

def dropped (f : Format) : Nat := 64 - f.precision

def largest (f : Format) : ℚ := (2 ^ f.precision - 1) * (2 : ℚ) ^ (f.bias + 1 - f.precision)

theorem dropped_add (f : Format) : f.dropped + f.precision = 64 := by
  have := f.narrow
  unfold dropped
  omega

theorem dropped_pos (f : Format) : 0 < f.dropped := by
  have := f.narrow
  unfold dropped
  omega

end Format

inductive Decoded where
  | finite (sign : Bool) (magnitude : ℚ)
  | infinite (sign : Bool)
  | nan

def decodeFields (f : Format) (sign : Bool) (exponent fraction : Nat) : Decoded :=
  if (exponent : Int) = f.top then
    if fraction = 0 then .infinite sign else .nan
  else if exponent = 0 then .finite sign (fraction * (2 : ℚ) ^ f.least)
  else .finite sign ((2 ^ (f.precision - 1) + fraction : Nat) * (2 : ℚ) ^ (f.least + exponent - 1))

def decodeSingle : List UInt8 → Decoded
  | [b0, b1, b2, b3] =>
    decodeFields .single (b0.toNat / 128 == 1) (b0.toNat % 128 * 2 + b1.toNat / 128)
      (b1.toNat % 128 * 2 ^ 16 + b2.toNat * 2 ^ 8 + b3.toNat)
  | _ => .nan

def decodeDouble : List UInt8 → Decoded
  | [b0, b1, b2, b3, b4, b5, b6, b7] =>
    decodeFields .double (b0.toNat / 128 == 1) (b0.toNat % 128 * 2 ^ 4 + b1.toNat / 2 ^ 4)
      (b1.toNat % 2 ^ 4 * 2 ^ 48 + b2.toNat * 2 ^ 40 + b3.toNat * 2 ^ 32 + b4.toNat * 2 ^ 24 +
        b5.toNat * 2 ^ 16 + b6.toNat * 2 ^ 8 + b7.toNat)
  | _ => .nan

theorem signBit_div (sign : Bool) {rest : Nat} (small : rest < 128) :
    ((signBit sign <<< 7 ||| rest) / 128 == 1) = sign ∧
      (signBit sign <<< 7 ||| rest) % 128 = rest ∧ (signBit sign <<< 7 ||| rest) < 256 := by
  have sum : signBit sign <<< 7 ||| rest = signBit sign * 128 + rest := by
    rw [Nat.shiftLeft_eq, Nat.or_comm, show 2 ^ 7 = 128 from rfl,
      show signBit sign * 128 = signBit sign * 2 ^ 7 from rfl, or_eq_add_of_lt small]
    exact Nat.add_comm _ _
  rw [sum]
  cases sign <;> simp only [signBit, Bool.false_eq_true, if_false, if_true] <;>
    refine ⟨?_, by omega, by omega⟩
  · simp
    omega
  · simp
    omega

theorem decodeSingle_singleBytes (sign : Bool) {exp : Nat} (m : FltMantissa)
    (bound : exp < 256) :
    decodeSingle (singleBytes sign exp m) =
      decodeFields .single sign exp (m.value / 2 ^ 40 % 2 ^ 23) := by
  have low := m.l32.toNat_lt
  obtain ⟨signed, rest, byte⟩ := signBit_div sign (show exp >>> 1 < 128 by
    omega)
  have second : (exp &&& 1) <<< 7 ||| (m.h32.toNat &&& 0x7fffffff) >>> 24 =
      exp % 2 * 128 + m.h32.toNat % 2 ^ 31 / 2 ^ 24 := by
    rw [Nat.and_one_is_mod, show 0x7fffffff = 2 ^ 31 - 1 from rfl, Nat.and_two_pow_sub_one_eq_mod,
      Nat.shiftRight_eq_div_pow, Nat.shiftLeft_eq, Nat.or_comm,
      or_eq_add_of_lt (by omega : m.h32.toNat % 2 ^ 31 / 2 ^ 24 < 2 ^ 7)]
    exact Nat.add_comm _ _
  have value : m.value / 2 ^ 40 % 2 ^ 23 = m.h32.toNat / 2 ^ 8 % 2 ^ 23 := by
    unfold FltMantissa.value
    omega
  unfold singleBytes decodeSingle
  simp only [UInt8.toNat_ofNat'] at *
  rw [Nat.mod_eq_of_lt byte, signed, rest]
  congr 1 <;> omega

/-- The fraction of a double, from the bytes of the two halves of the mantissa. -/
theorem double_fraction {h l : Nat} (low : l < 2 ^ 32) (e : Nat) :
    (e % 16 * 16 + h / 2 ^ 27 % 16) % 2 ^ 8 % 2 ^ 4 * 2 ^ 48 + h / 2 ^ 19 % 2 ^ 8 * 2 ^ 40 +
        h / 2 ^ 11 % 2 ^ 8 * 2 ^ 32 + h / 2 ^ 3 % 2 ^ 8 * 2 ^ 24 +
        (h * 32 + l / 2 ^ 27 % 32) % 2 ^ 8 * 2 ^ 16 + l / 2 ^ 19 % 2 ^ 8 * 2 ^ 8 +
        l / 2 ^ 11 % 2 ^ 8 = (h * 2 ^ 32 + l) / 2 ^ 11 % 2 ^ 52 := by
  have whole : (h * 2 ^ 32 + l) / 2 ^ 11 % 2 ^ 52 = h % 2 ^ 31 * 2 ^ 21 + l / 2 ^ 11 := by omega
  have first : (e % 16 * 16 + h / 2 ^ 27 % 16) % 2 ^ 8 % 2 ^ 4 = h / 2 ^ 27 % 16 := by omega
  have middle : (h * 32 + l / 2 ^ 27 % 32) % 2 ^ 8 = h % 8 * 32 + l / 2 ^ 27 := by omega
  have upper : h % 2 ^ 31 = h / 2 ^ 27 % 16 * 2 ^ 27 + h / 2 ^ 19 % 2 ^ 8 * 2 ^ 19 +
      h / 2 ^ 11 % 2 ^ 8 * 2 ^ 11 + h / 2 ^ 3 % 2 ^ 8 * 2 ^ 3 + h % 8 := by
    omega
  have lower : l / 2 ^ 11 = l / 2 ^ 27 * 2 ^ 16 + l / 2 ^ 19 % 2 ^ 8 * 2 ^ 8 +
      l / 2 ^ 11 % 2 ^ 8 := by
    omega
  rw [whole, first, middle]
  linarith only [upper, lower]

theorem decodeDouble_doubleBytes (sign : Bool) {exp : Nat} (m : FltMantissa)
    (bound : exp < 2048) :
    decodeDouble (doubleBytes sign exp m) =
      decodeFields .double sign exp (m.value / 2 ^ 11 % 2 ^ 52) := by
  have low := m.l32.toNat_lt
  obtain ⟨signed, rest, byte⟩ := signBit_div sign (show exp >>> 4 < 128 by
    omega)
  have second : (exp &&& 0xf) <<< 4 ||| (m.h32.toNat >>> 27) &&& 0xf =
      exp % 16 * 16 + m.h32.toNat / 2 ^ 27 % 16 := by
    rw [show 0xf = 2 ^ 4 - 1 from rfl, Nat.and_two_pow_sub_one_eq_mod,
      Nat.and_two_pow_sub_one_eq_mod, Nat.shiftRight_eq_div_pow, Nat.shiftLeft_eq, Nat.or_comm,
      or_eq_add_of_lt (Nat.mod_lt _ (by decide))]
    exact Nat.add_comm _ _
  have sixth : m.h32.toNat <<< 5 ||| (m.l32.toNat >>> 27) &&& 0x1f =
      m.h32.toNat * 32 + m.l32.toNat / 2 ^ 27 % 32 := by
    rw [show 0x1f = 2 ^ 5 - 1 from rfl, Nat.and_two_pow_sub_one_eq_mod,
      Nat.shiftRight_eq_div_pow, Nat.shiftLeft_eq, Nat.or_comm,
      or_eq_add_of_lt (Nat.mod_lt _ (by decide))]
    exact Nat.add_comm _ _
  unfold doubleBytes decodeDouble FltMantissa.value
  rw [second, sixth]
  simp only [UInt8.toNat_ofNat', Nat.shiftRight_eq_div_pow] at *
  rw [Nat.mod_eq_of_lt byte, signed, rest]
  congr 1
  · omega
  · exact double_fraction low exp

/-! ## Rounding and shifting -/

theorem add_div_two_pow (V : Nat) {k c : Nat} (small : c ≤ 2 ^ k) :
    (V + c) / 2 ^ k = V / 2 ^ k + if 2 ^ k - c ≤ V % 2 ^ k then 1 else 0 := by
  have positive := Nat.two_pow_pos k
  have split : V + c = 2 ^ k * (V / 2 ^ k) + (V % 2 ^ k + c) := by
    rw [← Nat.add_assoc, Nat.div_add_mod]
  rw [split, Nat.mul_add_div positive]
  congr 1
  split_ifs with carries
  · rw [Nat.div_eq_iff positive]
    omega
  · exact Nat.div_eq_of_lt (by omega)

/-- Rounding to `t` bits and then dropping `s` more agrees with rounding all
of them at once exactly when the bits dropped do not start with a one, or are
all ones down to the place of the first rounding. -/
theorem round_then_shift_iff (V : Nat) {t s : Nat} (tPos : 0 < t) (sPos : 0 < s) :
    (V + 2 ^ (t - 1)) / 2 ^ t / 2 ^ s = (V + 2 ^ (t + s - 1)) / 2 ^ (t + s) ↔
      V % 2 ^ (t + s) < 2 ^ (t + s - 1) ∨
        2 ^ (t + s) - 2 ^ (t - 1) ≤ V % 2 ^ (t + s) := by
  have whole : 2 ^ (t + s) = 2 * 2 ^ (t + s - 1) := by
    rw [← pow_succ']
    congr 1
    omega
  have half : 2 ^ (t - 1) ≤ 2 ^ (t + s - 1) := Nat.pow_le_pow_right (by decide) (by omega)
  rw [Nat.div_div_eq_div_mul, ← pow_add, add_div_two_pow V (by omega), add_div_two_pow V (by omega)]
  split_ifs <;> omega

/-- The significand of `precision` bits the code rounds a mantissa to. -/
def significand (f : Format) (V : Nat) : Nat :=
  (V + 2 ^ (f.dropped - 1)) / 2 ^ f.dropped

variable {V : Nat} {exp : Int} {e : FltArith} {result : Int × FltMantissa}

theorem significand_le (f : Format) (bound : V < 2 ^ 64) : significand f V ≤ 2 ^ f.precision := by
  have positive := Nat.two_pow_pos f.dropped
  have half : 2 ^ (f.dropped - 1) ≤ 2 ^ f.dropped := Nat.pow_le_pow_right (by decide) (by omega)
  have quotient : V / 2 ^ f.dropped < 2 ^ f.precision := by
    rw [Nat.div_lt_iff_lt_mul positive, ← pow_add, Nat.add_comm, f.dropped_add]
    exact bound
  unfold significand
  rw [add_div_two_pow V half]
  split_ifs <;> omega

theorem le_significand (f : Format) (normal : 2 ^ 63 ≤ V) :
    2 ^ (f.precision - 1) ≤ significand f V := by
  have narrow := f.narrow
  have total := f.dropped_add
  unfold significand
  rw [Nat.le_div_iff_mul_le (Nat.two_pow_pos _), ← pow_add,
    show f.precision - 1 + f.dropped = 63 by omega]
  exact normal.trans (Nat.le_add_right _ _)

structure Rounded (f : Format) (V : Nat) (exp : Int) (result : Int × FltMantissa) : Prop where
  plain : significand f V < 2 ^ f.precision →
    result.1 = exp ∧ result.2.value / 2 ^ f.dropped = significand f V
  carry : 2 ^ f.precision ≤ significand f V →
    result.1 = exp + 1 ∧ result.2.value / 2 ^ f.dropped = 2 ^ (f.precision - 1)

def decodeFit (f : Format) (sign : Bool) (fit : Bool × Int × FltMantissa) : Decoded :=
  decodeFields f sign fit.2.1.toNat (fit.2.2.value / 2 ^ f.dropped % 2 ^ (f.precision - 1))

theorem decodeFit_normal (f : Format) (sign : Bool) {m : FltMantissa} {M : Nat} (low : 1 ≤ exp)
    (high : exp < f.top) (kept : m.value / 2 ^ f.dropped = M) (normal : 2 ^ (f.precision - 1) ≤ M)
    (bound : M < 2 ^ f.precision) :
    fitExponent f.top exp m = (false, exp, m) ∧
    decodeFit f sign (fitExponent f.top exp m) =
      .finite sign (M * (2 : ℚ) ^ (f.least + exp - 1)) := by
  have narrow := f.narrow
  have same : fitExponent f.top exp m = (false, exp, m) := by
    unfold fitExponent
    rw [if_neg (by omega), if_neg (by omega)]
  refine ⟨same, ?_⟩
  have whole : 2 ^ f.precision = 2 ^ (f.precision - 1) + 2 ^ (f.precision - 1) := by
    rw [← Nat.two_mul, ← pow_succ']
    congr 1
    omega
  have fraction : 2 ^ (f.precision - 1) + M % 2 ^ (f.precision - 1) = M := by
    rw [Nat.mod_eq_sub_mod normal, Nat.mod_eq_of_lt (by omega)]
    omega
  have field : ((exp.toNat : Nat) : Int) = exp := by omega
  rw [same]
  unfold decodeFit decodeFields
  dsimp only
  rw [field, if_neg (by omega), if_neg (by omega), kept, fraction]

theorem decodeFit_subnormal (f : Format) (sign : Bool) {m : FltMantissa} {M : Nat} (low : exp ≤ 0)
    (kept : m.value / 2 ^ f.dropped = M) (bound : M < 2 ^ f.precision) :
    (fitExponent f.top exp m).1 = false ∧
    decodeFit f sign (fitExponent f.top exp m) =
      .finite sign ((M / 2 ^ (1 - exp).toNat : Nat) * (2 : ℚ) ^ f.least) := by
  have biased := f.biased
  have topPos : 0 < f.top := by
    unfold Format.top
    omega
  obtain ⟨shifted, same, value⟩ := fitExponent_subnormal m topPos low
  rw [same]
  refine ⟨rfl, ?_⟩
  have fraction : shifted.value / 2 ^ f.dropped % 2 ^ (f.precision - 1) =
      M / 2 ^ (1 - exp).toNat := by
    rw [value, Nat.div_right_comm, kept, Nat.mod_eq_of_lt]
    rw [Nat.div_lt_iff_lt_mul (Nat.two_pow_pos _), ← pow_add]
    exact lt_of_lt_of_le bound (Nat.pow_le_pow_right (by decide) (by omega))
  unfold decodeFit decodeFields
  rw [fraction, Int.toNat_zero, Nat.cast_zero, if_neg (by omega), if_pos rfl]

/-! ## The stored number and the nearest one -/

/-- What is asked of a constant: it decodes to the nearest number of the
format, or, when that is beyond the largest one, there is an error return or an
infinity or the largest number. -/
def Correct (f : Format) (e : FltArith) (ret : Nat) (d : Decoded) : Prop :=
  ∃ r, NearestUp (Representable f.precision f.least) (magnitude e) r ∧
    (r < (2 : ℚ) ^ (f.bias + 1) → ret = 0 ∧ d = .finite e.sign r) ∧
    ((2 : ℚ) ^ (f.bias + 1) ≤ r →
      ret ≠ 0 ∨ d = .infinite e.sign ∨ d = .finite e.sign f.largest)

/-- The number of bits a subnormal result drops in addition. -/
def subnormalShift (f : Format) (e : FltArith) : Nat :=
  (1 - (e.exp + f.bias)).toNat

/-- The bits a constant drops, and when rounding them in two steps does no harm:
the number is zero, or not subnormal, or the bits dropped do not start with a
one, or are all ones down to the place of the first rounding. -/
def KeepsCarry (f : Format) (e : FltArith) : Prop :=
  e.mantissa = FltMantissa.zero ∨ 1 ≤ e.exp + f.bias ∨
    e.mantissa.value % 2 ^ (f.dropped + subnormalShift f e) <
      2 ^ (f.dropped + subnormalShift f e - 1) ∨
    2 ^ (f.dropped + subnormalShift f e) - 2 ^ (f.dropped - 1) ≤
      e.mantissa.value % 2 ^ (f.dropped + subnormalShift f e)

instance (f : Format) (e : FltArith) : Decidable (KeepsCarry f e) :=
  inferInstanceAs (Decidable (_ ∨ _ ∨ _ ∨ _))

/-- The nearest number of a number that is not subnormal. -/
theorem nearest_normal (f : Format) (normal : e.mantissa.Normalized) (low : 1 ≤ e.exp + f.bias) :
    NearestUp (Representable f.precision f.least) (magnitude e)
      (significand f e.mantissa.value * (2 : ℚ) ^ (f.least + (e.exp + f.bias) - 1)) := by
  have narrow := f.narrow
  have total := f.dropped_add
  have quantum : f.least + (e.exp + f.bias) - 1 = e.exp - 63 + f.dropped := by
    unfold Format.least
    omega
  have positive : (0 : ℚ) < 2 ^ (e.exp - 63) := by positivity
  have rounded := roundMultiple_dyadic e.mantissa.value f.dropped (e.exp - 63) f.dropped_pos
  rw [quantum, significand, ← rounded]
  have split : (2 : ℚ) ^ (e.exp - 63 + f.dropped) = 2 ^ (e.exp - 63) * 2 ^ f.dropped := by
    rw [zpow_add₀ (by norm_num), zpow_natCast]
  refine roundMultiple_nearestUp (by omega) (by unfold magnitude; positivity) ?_ ?_ (Or.inr ?_)
  · unfold Format.least
    omega
  · have bound : (e.mantissa.value : ℚ) < 2 ^ f.precision * 2 ^ f.dropped := by
      rw [← pow_add, Nat.add_comm, f.dropped_add]
      exact_mod_cast e.mantissa.value_lt
    rw [split, zpow_natCast]
    calc (e.mantissa.value : ℚ) * 2 ^ (e.exp - 63)
        < 2 ^ f.precision * 2 ^ f.dropped * 2 ^ (e.exp - 63) :=
          mul_lt_mul_of_pos_right bound positive
      _ = _ := by ring
  · have bound : (2 : ℚ) ^ (f.precision - 1) * 2 ^ f.dropped ≤ e.mantissa.value := by
      rw [← pow_add, show f.precision - 1 + f.dropped = 63 by omega]
      exact_mod_cast normal
    rw [split, show (f.precision : Int) - 1 = ((f.precision - 1 : Nat) : Int) by omega, zpow_natCast]
    calc (2 : ℚ) ^ (f.precision - 1) * (2 ^ (e.exp - 63) * 2 ^ f.dropped)
        = 2 ^ (f.precision - 1) * 2 ^ f.dropped * 2 ^ (e.exp - 63) := by ring
      _ ≤ _ := mul_le_mul_of_nonneg_right bound positive.le

theorem nearest_subnormal (f : Format) (low : e.exp + f.bias ≤ 0) :
    NearestUp (Representable f.precision f.least) (magnitude e)
      (((e.mantissa.value + 2 ^ (f.dropped + subnormalShift f e - 1)) /
        2 ^ (f.dropped + subnormalShift f e) : Nat) * (2 : ℚ) ^ f.least) := by
  have narrow := f.narrow
  have total := f.dropped_add
  have quantum : f.least = e.exp - 63 + (f.dropped + subnormalShift f e : Nat) := by
    unfold Format.least subnormalShift
    omega
  have rounded := roundMultiple_dyadic e.mantissa.value (f.dropped + subnormalShift f e)
    (e.exp - 63) (by have := f.dropped_pos; omega)
  rw [← quantum] at rounded
  rw [← rounded]
  refine roundMultiple_nearestUp (by omega) (by unfold magnitude; positivity) le_rfl ?_ (Or.inl rfl)
  have bound : (e.mantissa.value : ℚ) < 2 ^ f.precision * 2 ^ f.dropped := by
    rw [← pow_add, Nat.add_comm, f.dropped_add]
    exact_mod_cast e.mantissa.value_lt
  have positive : (0 : ℚ) < 2 ^ (e.exp - 63) := by positivity
  have grow : (2 : ℚ) ^ f.dropped ≤ 2 ^ (f.dropped + subnormalShift f e) :=
    pow_le_pow_right₀ (by norm_num) (by omega)
  rw [quantum, zpow_add₀ (by norm_num), zpow_natCast, zpow_natCast]
  calc (e.mantissa.value : ℚ) * 2 ^ (e.exp - 63)
      < 2 ^ f.precision * 2 ^ f.dropped * 2 ^ (e.exp - 63) :=
        mul_lt_mul_of_pos_right bound positive
    _ ≤ 2 ^ f.precision * 2 ^ (f.dropped + subnormalShift f e) * 2 ^ (e.exp - 63) := by gcongr
    _ = _ := by ring

theorem below_limit (f : Format) {n : Nat} {x : Int} (bound : n < 2 ^ f.precision)
    (inside : x < f.top) : (n : ℚ) * 2 ^ (f.least + x - 1) < 2 ^ (f.bias + 1) := by
  have nBound : (n : ℚ) < 2 ^ (f.precision : Int) := by exact_mod_cast bound
  calc (n : ℚ) * 2 ^ (f.least + x - 1) < 2 ^ (f.precision : Int) * 2 ^ (f.least + x - 1) :=
        mul_lt_mul_of_pos_right nBound (by positivity)
    _ = 2 ^ ((f.precision : Int) + (f.least + x - 1)) := (zpow_add₀ (by norm_num) _ _).symm
    _ ≤ 2 ^ (f.bias + 1) := by
        refine zpow_le_zpow_right₀ (by norm_num) ?_
        unfold Format.least Format.top at *
        omega

theorem beyond_limit (f : Format) {n : Nat} {x : Int} (normal : 2 ^ (f.precision - 1) ≤ n)
    (outside : f.top ≤ x) : (2 : ℚ) ^ (f.bias + 1) ≤ n * 2 ^ (f.least + x - 1) := by
  have nBound : (2 : ℚ) ^ ((f.precision - 1 : Nat) : Int) ≤ n := by exact_mod_cast normal
  calc (2 : ℚ) ^ (f.bias + 1)
      ≤ 2 ^ (((f.precision - 1 : Nat) : Int) + (f.least + x - 1)) := by
        refine zpow_le_zpow_right₀ (by norm_num) ?_
        unfold Format.least Format.top at *
        omega
    _ = 2 ^ ((f.precision - 1 : Nat) : Int) * 2 ^ (f.least + x - 1) := zpow_add₀ (by norm_num) _ _
    _ ≤ n * 2 ^ (f.least + x - 1) := mul_le_mul_of_nonneg_right nBound (by positivity)

/-- A carry out of the significand moves to the next binade. -/
theorem Rounded.binade {f : Format} (rounded : Rounded f V exp result) (bound : V < 2 ^ 64) :
    ∃ M : Nat, result.2.value / 2 ^ f.dropped = M ∧ M < 2 ^ f.precision ∧
      (2 ^ 63 ≤ V → 2 ^ (f.precision - 1) ≤ M) ∧ (exp ≤ result.1 ∧ result.1 ≤ exp + 1) ∧
      (significand f V : ℚ) * 2 ^ (f.least + exp - 1) = M * (2 : ℚ) ^ (f.least + result.1 - 1) ∧
      (∀ s, 0 < s → result.1 = exp → significand f V / 2 ^ s = M / 2 ^ s) ∧
      (∀ s, 0 < s → result.1 ≠ exp → significand f V / 2 ^ s = M / 2 ^ (s - 1)) := by
  have narrow := f.narrow
  have whole : 2 ^ f.precision = 2 * 2 ^ (f.precision - 1) := by
    rw [← pow_succ']
    congr 1
    omega
  rcases (significand_le f bound).lt_or_eq with plain | carry
  · obtain ⟨same, kept⟩ := rounded.plain plain
    refine ⟨significand f V, kept, plain, le_significand f, by omega, by rw [same],
      fun s _ _ => rfl, fun s _ differs => absurd same differs⟩
  · obtain ⟨next, kept⟩ := rounded.carry carry.ge
    have positive := Nat.two_pow_pos (f.precision - 1)
    refine ⟨2 ^ (f.precision - 1), kept, by omega, fun _ => le_rfl, by omega, ?_,
      fun s _ same => by omega, fun s positiveShift _ => ?_⟩
    · rw [carry, next, whole]
      push_cast
      rw [show f.least + (exp + 1) - 1 = f.least + exp - 1 + 1 by ring, zpow_add₀ (by norm_num)]
      ring
    · have split : 2 ^ s = 2 * 2 ^ (s - 1) := by
        rw [← pow_succ']
        congr 1
        omega
      rw [carry, whole, split, Nat.mul_div_mul_left _ _ (by decide)]

/-- The return value of `float_cst` for an outcome of `fitExponent`. -/
def returned (fit : Bool × Int × FltMantissa) : Nat :=
  if fit.1 then 2 else 0

section

variable (f : Format)
include f

/-- A number that is not subnormal is stored correctly. -/
theorem correct_normal (normal : e.mantissa.Normalized) (low : 1 ≤ e.exp + f.bias)
    (rounded : Rounded f e.mantissa.value (e.exp + f.bias) result) :
    Correct f e (returned (fitExponent f.top result.1 result.2))
      (decodeFit f e.sign (fitExponent f.top result.1 result.2)) := by
  obtain ⟨M, kept, bound, top, range, same, -⟩ := rounded.binade e.mantissa.value_lt
  refine ⟨_, nearest_normal f normal low, ?_⟩
  rw [same]
  by_cases inside : result.1 < f.top
  · obtain ⟨fit, decoded⟩ := decodeFit_normal f e.sign (by omega) inside kept (top normal) bound
    rw [decoded, fit]
    exact ⟨fun _ => ⟨rfl, rfl⟩, fun large => absurd large (not_le.mpr (below_limit f bound inside))⟩
  · have overflow : fitExponent f.top result.1 result.2 = (true, f.top, FltMantissa.zero) := by
      unfold fitExponent
      rw [if_pos (not_lt.mp inside)]
    rw [overflow]
    refine ⟨fun small => ?_, fun _ => Or.inl two_ne_zero⟩
    exact absurd small (not_lt.mpr (beyond_limit f (top normal) (not_lt.mp inside)))

/-- A subnormal number is stored as its rounded significand, shifted. -/
theorem decodeFit_rounded (sign : Bool) (bound : V < 2 ^ 64) (low : exp ≤ 0)
    (rounded : Rounded f V exp result) :
    (fitExponent f.top result.1 result.2).1 = false ∧
    decodeFit f sign (fitExponent f.top result.1 result.2) =
      .finite sign ((significand f V / 2 ^ (1 - exp).toNat : Nat) * (2 : ℚ) ^ f.least) := by
  have biased := f.biased
  obtain ⟨M, kept, small, -, range, -, plain, carry⟩ := rounded.binade bound
  by_cases still : result.1 ≤ 0
  · obtain ⟨fits, decoded⟩ := decodeFit_subnormal f sign still kept small
    refine ⟨fits, decoded.trans ?_⟩
    by_cases same : result.1 = exp
    · rw [same, plain _ (by omega) same]
    · rw [carry _ (by omega) same]
      congr 5
      omega
  · -- the carry has made a subnormal number the smallest normal one
    have isOne : result.1 = 1 := by omega
    have differs : result.1 ≠ exp := by omega
    have inside : result.1 < f.top := by
      unfold Format.top
      omega
    have full : M = 2 ^ (f.precision - 1) := by
      by_contra other
      by_cases plainCase : significand f V < 2 ^ f.precision
      · exact differs (rounded.plain plainCase).1
      · exact other (kept.symm.trans (rounded.carry (not_lt.mp plainCase)).2)
    obtain ⟨fit, decoded⟩ := decodeFit_normal f sign (by omega) inside kept full.ge small
    refine ⟨by rw [fit], decoded.trans ?_⟩
    rw [carry _ (by omega) differs, isOne, show (1 - exp).toNat - 1 = 0 by omega, pow_zero,
      Nat.div_one]
    ring_nf

theorem rounded_subnormal_lt {s : Nat} (bound : V < 2 ^ 64) (positive : 0 < s) :
    (V + 2 ^ (f.dropped + s - 1)) / 2 ^ (f.dropped + s) < 2 ^ f.precision := by
  have narrow := f.narrow
  have total := f.dropped_add
  have half : 2 ^ (f.dropped + s - 1) ≤ 2 ^ (f.dropped + s) :=
    Nat.pow_le_pow_right (by decide) (by omega)
  have quotient : V / 2 ^ (f.dropped + s) < 2 ^ (f.precision - 1) := by
    rw [Nat.div_lt_iff_lt_mul (Nat.two_pow_pos _), ← pow_add]
    exact lt_of_lt_of_le bound (Nat.pow_le_pow_right (by decide) (by omega))
  have whole : 2 ^ f.precision = 2 * 2 ^ (f.precision - 1) := by
    rw [← pow_succ']
    congr 1
    omega
  have positiveHalf := Nat.two_pow_pos (f.precision - 1)
  rw [add_div_two_pow V half]
  split_ifs <;> omega

/-- A subnormal number is stored correctly exactly when the two roundings agree. -/
theorem correct_subnormal_iff (low : e.exp + f.bias ≤ 0)
    (rounded : Rounded f e.mantissa.value (e.exp + f.bias) result) :
    Correct f e (returned (fitExponent f.top result.1 result.2))
        (decodeFit f e.sign (fitExponent f.top result.1 result.2)) ↔
      e.mantissa.value % 2 ^ (f.dropped + subnormalShift f e) <
          2 ^ (f.dropped + subnormalShift f e - 1) ∨
        2 ^ (f.dropped + subnormalShift f e) - 2 ^ (f.dropped - 1) ≤
          e.mantissa.value % 2 ^ (f.dropped + subnormalShift f e) := by
  have shiftPos : 0 < subnormalShift f e := by
    unfold subnormalShift
    omega
  have quantum : (0 : ℚ) < 2 ^ f.least := by positivity
  obtain ⟨fits, decoded⟩ := decodeFit_rounded f e.sign e.mantissa.value_lt low rounded
  have nearest := nearest_subnormal f low
  rw [← round_then_shift_iff e.mantissa.value f.dropped_pos shiftPos]
  rw [decoded]
  change Correct f e _ (.finite e.sign (((e.mantissa.value + 2 ^ (f.dropped - 1)) / 2 ^ f.dropped /
    2 ^ subnormalShift f e : Nat) * (2 : ℚ) ^ f.least)) ↔ _
  have limit : (((e.mantissa.value + 2 ^ (f.dropped + subnormalShift f e - 1)) /
      2 ^ (f.dropped + subnormalShift f e) : Nat) : ℚ) * 2 ^ f.least < 2 ^ (f.bias + 1) := by
    have inside : 1 < f.top := by
      have := f.biased
      unfold Format.top
      omega
    have small := below_limit f (rounded_subnormal_lt f e.mantissa.value_lt shiftPos) inside
    rwa [show f.least + 1 - 1 = f.least by ring] at small
  constructor
  · rintro ⟨r, isNearest, small, -⟩
    rw [← nearest.unique isNearest] at small
    have equal := (Decoded.finite.injEq _ _ _ _ ▸ (small limit).2).2
    exact_mod_cast mul_right_cancel₀ quantum.ne' equal
  · intro agree
    refine ⟨_, nearest, fun _ => ⟨?_, by rw [agree]⟩, fun large => absurd large (not_le.mpr limit)⟩
    unfold returned
    rw [fits]
    rfl

theorem correct_zero (empty : e.mantissa = FltMantissa.zero)
    (rounded : Rounded f e.mantissa.value 0 result) :
    Correct f e (returned (fitExponent f.top result.1 result.2))
      (decodeFit f e.sign (fitExponent f.top result.1 result.2)) := by
  have narrow := f.narrow
  have zeroMagnitude : magnitude e = 0 := by
    unfold magnitude
    rw [empty, FltMantissa.value_zero]
    simp
  have nearest := roundMultiple_nearestUp (v := 0) (by omega : 0 < f.precision) le_rfl
    (le_refl f.least) (by positivity) (Or.inl rfl)
  have isZero : roundMultiple 0 (2 ^ f.least) = 0 := by
    unfold roundMultiple
    norm_num
  have none : significand f e.mantissa.value = 0 := by
    unfold significand
    rw [empty, FltMantissa.value_zero, Nat.zero_add, Nat.div_eq_of_lt]
    exact Nat.pow_lt_pow_right (by decide) (by have := f.dropped_pos; omega)
  obtain ⟨fits, decoded⟩ := decodeFit_rounded f e.sign e.mantissa.value_lt le_rfl rounded
  rw [isZero] at nearest
  refine ⟨0, zeroMagnitude ▸ nearest, fun _ => ⟨?_, ?_⟩, fun large => ?_⟩
  · unfold returned
    rw [fits]
    rfl
  · rw [decoded, none]
    simp
  · exact absurd large (not_le.mpr (by positivity))

/-- A number is stored correctly exactly when the two roundings agree. -/
theorem correct_iff (wellFormed : WellFormed e) (rounded : Rounded f e.mantissa.value
      (if e.mantissa = FltMantissa.zero then 0 else e.exp + f.bias) result) :
    Correct f e (returned (fitExponent f.top result.1 result.2))
      (decodeFit f e.sign (fitExponent f.top result.1 result.2)) ↔ KeepsCarry f e := by
  rcases wellFormed.form with empty | normal
  · rw [if_pos empty] at rounded
    exact iff_of_true (correct_zero f empty rounded) (Or.inl empty)
  · have nonzero : e.mantissa ≠ FltMantissa.zero := by
      intro empty
      rw [empty] at normal
      exact absurd normal (by decide)
    rw [if_neg nonzero] at rounded
    by_cases low : 1 ≤ e.exp + f.bias
    · exact iff_of_true (correct_normal f normal low rounded) (Or.inr (Or.inl low))
    · rw [correct_subnormal_iff f (by omega) rounded]
      constructor
      · exact fun agree => Or.inr (Or.inr agree)
      · rintro (empty | normalExp | agree)
        · exact absurd empty nonzero
        · exact absurd normalExp low
        · exact agree

end

theorem biasedExponent_eq (wellFormed : WellFormed e) {bias : Int} (low : 0 ≤ bias)
    (high : bias ≤ 2000) :
    biasedExponent bias e = if e.mantissa = FltMantissa.zero then 0 else e.exp + bias := by
  obtain ⟨form, least, greatest⟩ := wellFormed
  unfold extMin at least
  unfold extMax at greatest
  unfold biasedExponent
  rw [toShort_of_range (by omega) (by omega)]
  have test : e.m1 = 0 ↔ e.mantissa = FltMantissa.zero := by
    constructor
    · intro (highZero : e.mantissa.h32 = 0)
      rcases form with empty | normal
      · exact empty
      · rw [FltMantissa.normalized_iff_high, highZero] at normal
        exact absurd normal (by decide)
    · intro empty
      exact congrArg FltMantissa.h32 empty
  simp only [test]

/-! ## The two formats -/

inductive Size where
  | four
  | eight

namespace Size

def bytes : Size → Nat
  | four => 4
  | eight => 8

def format : Size → Format
  | four => .single
  | eight => .double

def decode : Size → List UInt8 → Decoded
  | four => decodeSingle
  | eight => decodeDouble

end Size

/-- The rounding of either branch, with the carry into a `short` resolved. -/
theorem rounded_of_spec {f : Format} (wellFormed : WellFormed e) (small : f.bias ≤ 2000)
    (plain : significand f e.mantissa.value < 2 ^ f.precision →
      result.1 = biasedExponent f.bias e ∧
        result.2.value / 2 ^ f.dropped = significand f e.mantissa.value)
    (carry : 2 ^ f.precision ≤ significand f e.mantissa.value →
      result.1 = toShort (biasedExponent f.bias e + 1) ∧
        result.2.value / 2 ^ f.dropped = 2 ^ (f.precision - 1)) :
    Rounded f e.mantissa.value
      (if e.mantissa = FltMantissa.zero then 0 else e.exp + f.bias) result := by
  have biased := f.biased
  have exponent := biasedExponent_eq wellFormed (by omega : 0 ≤ f.bias) small
  have low := wellFormed.low
  have high := wellFormed.high
  unfold extMin at low
  unfold extMax at high
  rw [exponent] at plain carry
  refine ⟨plain, fun full => ?_⟩
  obtain ⟨next, kept⟩ := carry full
  refine ⟨next.trans (toShort_of_range ?_ ?_), kept⟩ <;> split_ifs <;> omega

/-- What `float_cst` returns and stores, in terms of the common steps. -/
theorem floatCst_eq (str : List UInt8) (size : Size) :
    ∃ result, Rounded size.format (fltStr2flt str).1.mantissa.value
        (if (fltStr2flt str).1.mantissa = FltMantissa.zero then 0
          else (fltStr2flt str).1.exp + size.format.bias) result ∧
      (floatCst str size.bytes).1 =
        returned (fitExponent size.format.top result.1 result.2) ∧
      size.decode (floatCst str size.bytes).2 =
        decodeFit size.format (fltStr2flt str).1.sign
          (fitExponent size.format.top result.1 result.2) := by
  have wellFormed := fltStr2flt_wellFormed str
  cases size with
  | four =>
    obtain ⟨plain, carry⟩ := roundSingle_spec (biasedExponent 127 (fltStr2flt str).1)
      (fltStr2flt str).1.mantissa
    refine ⟨_, rounded_of_spec (f := .single) wellFormed (by decide) plain carry, rfl, ?_⟩
    exact decodeSingle_singleBytes _ _ (fitExponent_lt _ _ (by decide))
  | eight =>
    obtain ⟨plain, carry⟩ := roundDouble_spec (biasedExponent 1023 (fltStr2flt str).1)
      (fltStr2flt str).1.mantissa
    refine ⟨_, rounded_of_spec (f := .double) wellFormed (by decide) plain carry, rfl, ?_⟩
    exact decodeDouble_doubleBytes _ _ (fitExponent_lt _ _ (by decide))
where
  fitExponent_lt {top limit : Nat} (exp : Int) (m : FltMantissa) (inside : top < limit) :
      (fitExponent top exp m).2.1.toNat < limit := by
    unfold fitExponent
    split_ifs <;> simp <;> omega

/-- A constant is the nearest IEEE number exactly when no carry of a subnormal
number is lost. -/
theorem float_cst_nearest_iff (str : List UInt8) (size : Size) :
    Correct size.format (fltStr2flt str).1 (floatCst str size.bytes).1
        (size.decode (floatCst str size.bytes).2) ↔
      KeepsCarry size.format (fltStr2flt str).1 := by
  obtain ⟨result, rounded, code, decoded⟩ := floatCst_eq str size
  rw [code, decoded]
  exact correct_iff size.format (fltStr2flt_wellFormed str) rounded

/-- The literal `2.5e-45`, between one and two units of the smallest single. -/
def twoAndAHalf : List UInt8 := [0x32, 0x2E, 0x35, 0x65, 0x2D, 0x34, 0x35]

/-- The single for `2.5e-45` is one unit instead of two. -/
theorem subnormal_single_loses_carry :
    ¬ ∀ (str : List UInt8) (size : Size), (fltStr2flt str).2 ≠ .noflt →
      Correct size.format (fltStr2flt str).1 (floatCst str size.bytes).1
        (size.decode (floatCst str size.bytes).2) := by
  intro claim
  obtain ⟨result, rounded, code, decoded⟩ := floatCst_eq twoAndAHalf .four
  have correct := claim twoAndAHalf .four (by decide +kernel)
  rw [code, decoded, correct_iff _ (fltStr2flt_wellFormed _) rounded] at correct
  exact absurd correct (by decide +kernel)

end AckFormal.ConFloat.Nearest
