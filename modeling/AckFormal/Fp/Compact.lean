import AckFormal.Fp.Extended
import AckFormal.Lib.Faithful

/-!
# Packing a double

`compact` rounds the 64 bits of an extended mantissa to 53, to the nearest and
on a tie to the even one, and drops further bits of a number that is too small
for a normalized double.  Traps are recorded, and a trap that is raised is taken
to return.
-/

namespace AckFormal.Fp.Compact

open Flt.Mantissa Flt.Number Extended Lib.Faithful

/-- The floating point traps of `FP_trap.h` that the package raises. -/
inductive Trap where
  | EFOVFL
  | EFUNFL
  | EFDIVZ

def DBL_MAX : Int := 2046

def DBL_MIN : Int := 1

def DBL_ZERO : UInt32 := 0xfffffd00

def DBL_EXACT : UInt32 := 0x7ff

def DBL_ROUNDUP : UInt32 := 0x400

def DBL_CARRYOUT : UInt32 := 0x200000

def DBL_MASK : UInt32 := 0xfffff

def CARRYBIT : UInt32 := 0x80000000

/-- The words of a double with its exponent; `d0` is the high one here. -/
structure Words where
  exp : Int
  d0 : UInt32
  d1 : UInt32

def roundUp (exp : Int) (d0 d1 : UInt32) : Words :=
  let d1 := d1 + 1
  if d1 = 0 then
    let d0 := d0 + 1
    let exp := if exp = 0 ∧ d0 &&& ~~~DBL_MASK ≠ 0 then toShort (exp + 1) else exp
    if d0 &&& DBL_CARRYOUT ≠ 0 then
      ⟨toShort (exp + 1), d0 >>> 1, if d0 &&& 1 ≠ 0 then CARRYBIT else d1⟩
    else ⟨exp, d0, d1⟩
  else ⟨exp, d0, d1⟩

def roundWords (exp : Int) (m : B64) : Words :=
  let d0 := m.h32 >>> 11
  let d1 := m.l32 >>> 11 ||| m.h32 <<< 21
  let rest := m.l32 &&& DBL_EXACT
  if rest > DBL_ROUNDUP ∨ (rest = DBL_ROUNDUP ∧ m.l32 &&& (DBL_ROUNDUP <<< 1) ≠ 0) then
    roundUp exp d0 d1
  else ⟨exp, d0, d1⟩

/-- Storing exponent, sign and mantissa, in the order of the target. -/
def storeWords (msl : Bool) (sign : UInt16) (w : Words) : DOUBLE :=
  let d0 := w.d0 &&& DBL_MASK
  let d0 := d0 ||| UInt32.ofNat (w.exp * 2 ^ 4).toNat <<< 16
  let d0 := if sign ≠ 0 then d0 ||| CARRYBIT else d0
  if msl then ⟨d0, w.d1⟩ else ⟨w.d1, d0⟩

/-- The label `dbl_over`: the mantissa is cleared and the rest of the function
runs once more, where nothing is left to round. -/
def dblOver (msl : Bool) (sign : UInt16) : DOUBLE × List Trap :=
  (storeWords msl sign (roundWords (DBL_MAX + 1) ⟨0, 0⟩), [.EFOVFL])

def denormalize (exp : Int) (m : B64) : Int × B64 :=
  let m := b64Rsft m
  if exp < 0 then (0, b64Sft m (-exp)) else (exp, m)

def compact (msl : Bool) (f : EXTEND) : DOUBLE × List Trap :=
  if f.m1 ||| (f.m2 &&& DBL_ZERO) = 0 then (⟨0, 0⟩, [])
  else
    let exp := toShort (f.exp + DBL_BIAS)
    if exp > DBL_MAX then dblOver msl f.sign
    else
      let (exp, m) := if exp < DBL_MIN then denormalize exp f.mantissa else (exp, f.mantissa)
      let w := roundWords exp m
      if w.exp > DBL_MAX then dblOver msl f.sign else (storeWords msl f.sign w, [])

/-! ## Rounding -/

/-- The 53 bits nearest to 64, on a tie the even ones. -/
def roundEven (m : Nat) : Nat :=
  m / 2 ^ 11 + if 2 ^ 10 < m % 2 ^ 11 ∨ (m % 2 ^ 11 = 2 ^ 10 ∧ m / 2 ^ 11 % 2 = 1) then 1 else 0

theorem roundEven_le {m : Nat} (bound : m < 2 ^ 64) : roundEven m ≤ 2 ^ 53 := by
  unfold roundEven
  split <;> omega

theorem roundEven_near (m : Nat) :
    m ≤ roundEven m * 2 ^ 11 + 2 ^ 10 ∧ roundEven m * 2 ^ 11 ≤ m + 2 ^ 10 := by
  unfold roundEven
  split <;> omega

def Words.number (w : Words) : Nat := w.d0.toNat * 2 ^ 32 + w.d1.toNat

theorem aligned_words (exp : Int) (m : B64) :
    (⟨exp, m.h32 >>> 11, m.l32 >>> 11 ||| m.h32 <<< 21⟩ : Words).number = m.value / 2 ^ 11 := by
  have low := m.l32.toNat_lt
  have upper : (m.h32 >>> 11).toNat = m.h32.toNat / 2 ^ 11 :=
    toNat_shiftRight_ofNat m.h32 (n := 11) (by decide)
  have lower : (m.l32 >>> 11).toNat = m.l32.toNat / 2 ^ 11 :=
    toNat_shiftRight_ofNat m.l32 (n := 11) (by decide)
  have moved : (m.h32 <<< 21).toNat = m.h32.toNat % 2 ^ 11 * 2 ^ 21 :=
    toNat_shiftLeft_ofNat m.h32 (n := 21) (by decide)
  unfold Words.number FltMantissa.value
  rw [UInt32.toNat_or, upper, lower, moved, or_eq_add_of_lt (by omega)]
  omega

theorem rounds_up (m : B64) :
    (m.l32 &&& DBL_EXACT > DBL_ROUNDUP ∨
        (m.l32 &&& DBL_EXACT = DBL_ROUNDUP ∧ m.l32 &&& (DBL_ROUNDUP <<< 1) ≠ 0)) ↔
      (2 ^ 10 < m.value % 2 ^ 11 ∨ (m.value % 2 ^ 11 = 2 ^ 10 ∧ m.value / 2 ^ 11 % 2 = 1)) := by
  have rest : (m.l32 &&& DBL_EXACT).toNat = m.value % 2 ^ 11 := by
    have mask : DBL_EXACT.toNat = 2 ^ 11 - 1 := rfl
    rw [UInt32.toNat_and, mask, Nat.and_two_pow_sub_one_eq_mod]
    unfold FltMantissa.value
    omega
  have half : DBL_ROUNDUP.toNat = 2 ^ 10 := rfl
  have odd : m.l32 &&& (DBL_ROUNDUP <<< 1) = 0 ↔ m.value / 2 ^ 11 % 2 = 0 := by
    rw [UInt32.and_comm, mask_and_eq_zero (k := 11) rfl]
    unfold FltMantissa.value
    omega
  rw [gt_iff_lt, UInt32.lt_iff_toNat_lt, rest, half, ← UInt32.toNat_inj, rest, half, Ne, odd]
  omega

theorem above_bits {w mask : UInt32} {k : Nat} (bits : mask.toNat = (2 ^ (32 - k) - 1) <<< k) :
    w &&& mask = 0 ↔ w.toNat < 2 ^ k := by
  have bound := w.toNat_lt
  rw [← UInt32.toNat_inj, UInt32.toNat_and, bits, UInt32.toNat_zero]
  constructor
  · intro clear
    refine Nat.lt_pow_two_of_testBit _ fun i large => ?_
    have bit := congrArg (Nat.testBit · i) clear
    simp only [Nat.testBit_and, Nat.testBit_shiftLeft, Nat.testBit_two_pow_sub_one,
      Nat.zero_testBit, Bool.and_eq_false_iff] at bit
    rcases bit with bit | bit
    · exact bit
    · refine Nat.testBit_lt_two_pow (bound.trans_le ?_)
      refine Nat.pow_le_pow_right (by decide) ?_
      by_contra inside
      simp [large, show i - k < 32 - k by omega] at bit
  · intro small
    refine Nat.eq_of_testBit_eq fun i => ?_
    rw [Nat.testBit_and, Nat.testBit_shiftLeft, Nat.zero_testBit]
    by_cases large : i ≥ k
    · rw [Nat.testBit_lt_two_pow (small.trans_le (Nat.pow_le_pow_right (by decide) large)),
        Bool.false_and]
    · simp [large]

theorem above_mask (w : UInt32) : w &&& ~~~DBL_MASK = 0 ↔ w.toNat < 2 ^ 20 :=
  above_bits (by decide)

section RoundUp

variable {d0 d1 : UInt32}

theorem roundUp_low (exp : Int) (d0 : UInt32) (room : d1.toNat + 1 < 2 ^ 32) :
    (roundUp exp d0 d1).number = (⟨exp, d0, d1⟩ : Words).number + 1 ∧
      (roundUp exp d0 d1).exp = exp := by
  have next : (d1 + 1).toNat = d1.toNat + 1 := by
    exact Nat.mod_eq_of_lt room
  have some : d1 + 1 ≠ 0 := fun zero => by
    rw [zero, UInt32.toNat_zero] at next
    omega
  unfold roundUp
  rw [if_neg some]
  refine ⟨?_, rfl⟩
  unfold Words.number
  dsimp only
  omega

/-- The low word is full, and the high one takes the carry. -/
theorem roundUp_high (exp : Int) (full : d1.toNat + 1 = 2 ^ 32) (small : d0.toNat < 2 ^ 21) :
    (d0.toNat + 1 < 2 ^ 21 →
      (roundUp exp d0 d1).number = (⟨exp, d0, d1⟩ : Words).number + 1 ∧
        (roundUp exp d0 d1).exp = if exp = 0 ∧ 2 ^ 20 ≤ d0.toNat + 1 then 1 else exp) ∧
    (d0.toNat + 1 = 2 ^ 21 → exp ≠ 0 →
      (roundUp exp d0 d1).number = 2 ^ 52 ∧ (roundUp exp d0 d1).exp = toShort (exp + 1)) := by
  have zero : d1 + 1 = 0 := by
    refine UInt32.toNat_inj.mp ?_
    change (d1.toNat + 1) % 2 ^ 32 = 0
    rw [full, Nat.mod_self]
  have next : (d0 + 1).toNat = d0.toNat + 1 := by
    exact Nat.mod_eq_of_lt (show d0.toNat + 1 < 2 ^ 32 by omega)
  have above := above_mask (d0 + 1)
  have carry : (d0 + 1) &&& DBL_CARRYOUT = 0 ↔ (d0.toNat + 1) / 2 ^ 21 % 2 = 0 := by
    rw [UInt32.and_comm, mask_and_eq_zero (k := 21) rfl, next]
  have odd := bit_zero (d0 + 1)
  have halved : ((d0 + 1) >>> 1).toNat = (d0 + 1).toNat / 2 ^ 1 :=
    toNat_shiftRight_ofNat (d0 + 1) (n := 1) (by decide)
  rw [next] at above odd halved
  unfold roundUp
  rw [if_pos zero, zero]
  refine ⟨fun room => ?_, fun carries normal => ?_⟩
  · rw [if_neg (not_not.mpr (carry.mpr (by omega)))]
    refine ⟨?_, ?_⟩
    · unfold Words.number
      dsimp only
      rw [next, UInt32.toNat_zero]
      omega
    · dsimp only
      have same : (exp = 0 ∧ (d0 + 1) &&& ~~~DBL_MASK ≠ 0) ↔ (exp = 0 ∧ 2 ^ 20 ≤ d0.toNat + 1) := by
        rw [Ne, above, not_lt]
      by_cases lifted : exp = 0 ∧ 2 ^ 20 ≤ d0.toNat + 1
      · rw [if_pos (same.mpr lifted), if_pos lifted, lifted.1]
        rfl
      · rw [if_neg (mt same.mp lifted), if_neg lifted]
  · have even : ¬ (d0 + 1) &&& 1 ≠ 0 := not_not.mpr (odd.mpr (by omega))
    rw [if_pos (mt carry.mp (by omega)), if_neg even, if_neg (fun both => normal both.1)]
    refine ⟨?_, rfl⟩
    unfold Words.number
    rw [halved, UInt32.toNat_zero]
    omega

end RoundUp

/-- Rounding to 53 bits, where the carry may make the exponent larger. -/
theorem roundWords_normal (exp : Int) (m : B64) (normal : exp ≠ 0) :
    (roundEven m.value < 2 ^ 53 →
      (roundWords exp m).number = roundEven m.value ∧ (roundWords exp m).exp = exp) ∧
    (roundEven m.value = 2 ^ 53 →
      (roundWords exp m).number = 2 ^ 52 ∧ (roundWords exp m).exp = toShort (exp + 1)) := by
  have bound := m.value_lt
  have words := aligned_words exp m
  unfold roundWords roundEven
  simp only [rounds_up m]
  split
  next =>
    generalize m.h32 >>> 11 = d0, m.l32 >>> 11 ||| m.h32 <<< 21 = d1 at words ⊢
    have low := d1.toNat_lt
    have parts := words
    unfold Words.number at parts
    dsimp only at parts
    rw [← words]
    by_cases room : d1.toNat + 1 < 2 ^ 32
    · refine ⟨fun _ => roundUp_low exp d0 room, fun full => ?_⟩
      omega
    · obtain ⟨fits, carries⟩ := roundUp_high exp (show d1.toNat + 1 = 2 ^ 32 by omega)
        (show d0.toNat < 2 ^ 21 by omega)
      refine ⟨fun small => ?_, fun full => ?_⟩
      · rw [words] at small
        obtain ⟨number, exponent⟩ := fits (by omega)
        refine ⟨number, exponent.trans (if_neg fun both => normal both.1)⟩
      · rw [words] at full
        exact carries (by omega) normal
  next =>
    rw [Nat.add_zero]
    refine ⟨fun _ => ⟨words, rfl⟩, fun full => ?_⟩
    omega

theorem roundWords_subnormal (m : B64) (small : m.value < 2 ^ 63) :
    (roundWords 0 m).number = roundEven m.value ∧
      (roundWords 0 m).exp = if roundEven m.value = 2 ^ 52 then 1 else 0 := by
  have words := aligned_words 0 m
  unfold roundWords roundEven
  simp only [rounds_up m]
  split
  next =>
    generalize m.h32 >>> 11 = d0, m.l32 >>> 11 ||| m.h32 <<< 21 = d1 at words ⊢
    have low := d1.toNat_lt
    have parts := words
    unfold Words.number at parts
    dsimp only at parts
    rw [← words]
    by_cases room : d1.toNat + 1 < 2 ^ 32
    · obtain ⟨number, exponent⟩ := roundUp_low 0 d0 room
      refine ⟨number, exponent.trans (if_neg ?_).symm⟩
      omega
    · obtain ⟨fits, -⟩ := roundUp_high 0 (show d1.toNat + 1 = 2 ^ 32 by omega)
        (show d0.toNat < 2 ^ 21 by omega)
      obtain ⟨number, exponent⟩ := fits (by omega)
      refine ⟨number, exponent.trans ?_⟩
      refine if_congr ?_ rfl rfl
      omega
  next =>
    rw [Nat.add_zero]
    refine ⟨words, (if_neg ?_).symm⟩
    omega

/-! ## Storing -/

variable {w : Words} {f : EXTEND}

section

variable (msl : Bool) (sign : UInt16) (low : 0 ≤ w.exp)
include msl sign low

/-- The parts of the packed words are those that were stored. -/
theorem storeWords_fields (high : w.exp ≤ 2047) :
    ((storeWords msl sign w).exponent msl : Int) = w.exp ∧
      (storeWords msl sign w).fraction msl = w.number % 2 ^ 52 ∧
      ((storeWords msl sign w).negative msl ↔ sign ≠ 0) := by
  have d1Bound := w.d1.toNat_lt
  have masked : (w.d0 &&& DBL_MASK).toNat = w.d0.toNat % 2 ^ 20 := by
    have mask : DBL_MASK.toNat = 2 ^ 20 - 1 := rfl
    rw [UInt32.toNat_and, mask, Nat.and_two_pow_sub_one_eq_mod]
  have placed : (UInt32.ofNat (w.exp * 2 ^ 4).toNat <<< 16).toNat = w.exp.toNat * 2 ^ 20 := by
    have moved := toNat_shiftLeft_ofNat (UInt32.ofNat (w.exp * 2 ^ 4).toNat) (n := 16) (by decide)
    rw [UInt32.toNat_ofNat'] at moved
    refine moved.trans ?_
    omega
  have unsigned : (w.d0 &&& DBL_MASK ||| UInt32.ofNat (w.exp * 2 ^ 4).toNat <<< 16).toNat =
      w.d0.toNat % 2 ^ 20 + w.exp.toNat * 2 ^ 20 := by
    rw [UInt32.toNat_or, masked, placed]
    exact or_eq_add_of_lt (Nat.mod_lt _ (by decide))
  have words : (((storeWords msl sign w).high msl).toNat =
        w.d0.toNat % 2 ^ 20 + w.exp.toNat * 2 ^ 20 + if sign ≠ 0 then 2 ^ 31 else 0) ∧
      (storeWords msl sign w).low msl = w.d1 := by
    have same : CARRYBIT = NORMBIT := rfl
    unfold storeWords
    cases msl <;> dsimp only [DOUBLE.high] <;> refine ⟨?_, rfl⟩ <;>
      simp only [if_true, Bool.false_eq_true, if_false] <;> split
    all_goals first
      | rw [same, or_normbit, unsigned]
        omega
      | rw [unsigned, Nat.add_zero]
  unfold DOUBLE.exponent DOUBLE.fraction DOUBLE.negative Words.number
  rw [words.1, words.2]
  refine ⟨?_, ?_, ?_⟩
  · split <;> omega
  · split <;> omega
  · split
    next set => exact ⟨fun _ => set, fun _ => by omega⟩
    next clear => exact ⟨fun large => by omega, fun set => absurd set clear⟩

theorem storeWords_number (high : w.exp ≤ 2047) :
    (storeWords msl sign w).value msl = EXTEND.signed sign
      (if w.exp = 0 then (w.number % 2 ^ 52 : Nat) * (2 : ℚ) ^ (-1074 : Int)
        else (2 ^ 52 + w.number % 2 ^ 52 : Nat) * (2 : ℚ) ^ (w.exp - 1075)) := by
  obtain ⟨exponent, fraction, negative⟩ := storeWords_fields msl sign low high
  have zero : (storeWords msl sign w).exponent msl = 0 ↔ w.exp = 0 := by omega
  unfold DOUBLE.value DOUBLE.magnitude EXTEND.signed
  simp only [negative, fraction, exponent, zero]
  by_cases positive : sign = 0
  · rw [if_neg (not_not.mpr positive), if_pos positive]
  · rw [if_pos positive, if_neg positive]

theorem storeWords_value (high : w.exp ≤ 2046) :
    (storeWords msl sign w).Finite msl ∧
      (storeWords msl sign w).value msl = EXTEND.signed sign
        (if w.exp = 0 then (w.number % 2 ^ 52 : Nat) * (2 : ℚ) ^ (-1074 : Int)
          else (2 ^ 52 + w.number % 2 ^ 52 : Nat) * (2 : ℚ) ^ (w.exp - 1075)) := by
  obtain ⟨exponent, -, -⟩ := storeWords_fields msl sign low (by omega)
  refine ⟨?_, storeWords_number msl sign low (by omega)⟩
  unfold DOUBLE.Finite
  omega

end

/-- How many bits below 2 ^ -1074 the mantissa of a small number has too many. -/
def surplus (f : EXTEND) : Nat := (-1022 - f.exp).toNat

def units (f : EXTEND) : Nat := roundEven (f.mantissa.value / 2 ^ surplus f)

def place (f : EXTEND) : Int := max (f.exp + 1023) 1 - 1075

theorem units_normal (low : -1022 ≤ f.exp) :
    units f = roundEven f.mantissa.value ∧ place f = f.exp - 52 := by
  have none : surplus f = 0 := by
    unfold surplus
    omega
  constructor
  · unfold units
    rw [none, pow_zero, Nat.div_one]
  · unfold place
    omega

theorem biased (low : -32768 ≤ f.exp) (high : f.exp ≤ 31744) :
    toShort (f.exp + DBL_BIAS) = f.exp + 1023 :=
  toShort_of_range (by unfold DBL_BIAS; omega) (by unfold DBL_BIAS; omega)

theorem denormalize_value {exp : Int} (small : exp < 1) (m : B64) :
    (denormalize exp m).1 = 0 ∧
      (denormalize exp m).2.value = m.value / 2 ^ (1 - exp).toNat := by
  unfold denormalize
  split
  next below =>
    refine ⟨rfl, ?_⟩
    have count : -exp = ((-exp).toNat : Int) := by omega
    have total : (1 - exp).toNat = 1 + (-exp).toNat := by omega
    rw [count, b64Sft_right, b64Rsft_value, Nat.div_div_eq_div_mul, ← pow_succ', total,
      Nat.add_comm]
  next =>
    have zero : exp = 0 := by omega
    refine ⟨zero, ?_⟩
    rw [b64Rsft_value, zero]
    rfl

theorem some_bit {m : B64} (normal : m.Normalized) : ¬ m.h32 ||| (m.l32 &&& DBL_ZERO) = 0 := by
  intro empty
  have bits := congrArg UInt32.toNat empty
  rw [UInt32.toNat_or] at bits
  have high := FltMantissa.normalized_iff_high.mp normal
  have none := (Nat.or_eq_zero_iff.mp bits).1
  omega

/-- In range the double is the number of units that `compact` has rounded to. -/
theorem compact_value (msl : Bool) (normal : f.mantissa.Normalized) (low : -32768 ≤ f.exp)
    (high : f.exp ≤ 1023) (room : f.exp = 1023 → units f < 2 ^ 53) :
    (compact msl f).1.Finite msl ∧
      (compact msl f).1.value msl = EXTEND.signed f.sign (units f * (2 : ℚ) ^ place f) ∧
      (compact msl f).2 = [] := by
  have bound := f.mantissa.value_lt
  unfold compact
  rw [if_neg (some_bit normal), biased low (by omega)]
  dsimp only
  rw [if_neg (show ¬ f.exp + 1023 > DBL_MAX by unfold DBL_MAX; omega)]
  by_cases small : f.exp + 1023 < DBL_MIN
  · -- below the normalized doubles the unit is the least one
    have below : f.exp + 1023 < 1 := small
    have count : (1 - (f.exp + 1023)).toNat = surplus f := by
      unfold surplus
      omega
    obtain ⟨exponent, mantissa⟩ := denormalize_value below f.mantissa
    rw [count] at mantissa
    have half : (denormalize (f.exp + 1023) f.mantissa).2.value < 2 ^ 63 := by
      have positive : 1 ≤ surplus f := by
        omega
      rw [mantissa]
      calc f.mantissa.value / 2 ^ surplus f ≤ f.mantissa.value / 2 ^ 1 :=
            Nat.div_le_div_left (Nat.pow_le_pow_right (by decide) positive) (by decide)
        _ < 2 ^ 63 := by omega
    obtain ⟨number, stored⟩ := roundWords_subnormal _ half
    rw [mantissa] at number stored
    change _ = units f at number
    change _ = if units f = 2 ^ 52 then 1 else 0 at stored
    have unit : place f = -1074 := by
      unfold place
      omega
    have full : units f ≤ 2 ^ 52 := by
      have near := (roundEven_near (f.mantissa.value / 2 ^ surplus f)).2
      unfold units
      omega
    rw [if_pos small]
    rw [exponent]
    generalize roundWords 0 (denormalize (f.exp + 1023) f.mantissa).2 = w at number stored ⊢
    rw [if_neg (show ¬ w.exp > DBL_MAX by unfold DBL_MAX; split at stored <;> omega)]
    obtain ⟨finite, value⟩ := storeWords_value msl f.sign (w := w)
      (by split at stored <;> omega) (by split at stored <;> omega)
    refine ⟨finite, ?_, rfl⟩
    rw [value, number, unit]
    by_cases top : units f = 2 ^ 52
    · rw [if_pos top] at stored
      rw [stored, top]
      norm_num
    · rw [if_neg top] at stored
      rw [if_pos stored, Nat.mod_eq_of_lt (by omega)]
  · have inside : ¬ f.exp + 1023 < 1 := small
    obtain ⟨number, unit⟩ := units_normal (f := f) (by omega)
    have leading : 2 ^ 52 ≤ units f := by
      have near := (roundEven_near f.mantissa.value).1
      have large : 2 ^ 63 ≤ f.mantissa.value := normal
      omega
    obtain ⟨fits, carries⟩ := roundWords_normal (f.exp + 1023) f.mantissa (by omega)
    rw [← number] at fits carries
    rw [if_neg small]
    generalize roundWords (f.exp + 1023) f.mantissa = w at fits carries ⊢
    by_cases top : units f = 2 ^ 53
    · -- the carry makes the mantissa a power of two
      obtain ⟨words, exponent⟩ := carries top
      rw [toShort_of_range (by omega) (by omega)] at exponent
      rw [if_neg (show ¬ w.exp > DBL_MAX by unfold DBL_MAX; omega)]
      obtain ⟨finite, value⟩ := storeWords_value msl f.sign (w := w) (by omega) (by omega)
      refine ⟨finite, ?_, rfl⟩
      have step : f.exp + 1023 + 1 - 1075 = f.exp - 52 + 1 := by omega
      rw [value, if_neg (by omega), words, exponent, top, unit, step, zpow_add₀ (by norm_num)]
      ring_nf
    · have less : units f < 2 ^ 53 := by
        have most := roundEven_le bound
        omega
      obtain ⟨words, exponent⟩ := fits less
      rw [if_neg (show ¬ w.exp > DBL_MAX by unfold DBL_MAX; omega)]
      obtain ⟨finite, value⟩ := storeWords_value msl f.sign (w := w) (by omega) (by omega)
      refine ⟨finite, ?_, rfl⟩
      have joined : 2 ^ 52 + units f % 2 ^ 52 = units f := by omega
      have step : f.exp + 1023 - 1075 = f.exp - 52 := by omega
      rw [value, if_neg (by omega), words, joined, exponent, unit, step]

theorem compact_over (msl : Bool) (normal : f.mantissa.Normalized) (high : f.exp ≤ 31744)
    (large : 1024 ≤ f.exp ∨ (f.exp = 1023 ∧ units f = 2 ^ 53)) :
    compact msl f = dblOver msl f.sign := by
  unfold compact
  rw [if_neg (some_bit normal), biased (by omega) high]
  dsimp only
  rcases large with above | ⟨last, full⟩
  · rw [if_pos (show f.exp + 1023 > DBL_MAX by unfold DBL_MAX; omega)]
  · have number := (units_normal (f := f) (by omega)).1
    rw [if_neg (show ¬ f.exp + 1023 > DBL_MAX by unfold DBL_MAX; omega),
      if_neg (show ¬ f.exp + 1023 < DBL_MIN by unfold DBL_MIN; omega)]
    obtain ⟨-, exponent⟩ :=
      (roundWords_normal (f.exp + 1023) f.mantissa (by omega)).2 (number ▸ full)
    rw [toShort_of_range (by omega) (by omega)] at exponent
    rw [if_pos (show (roundWords (f.exp + 1023) f.mantissa).exp > DBL_MAX by unfold DBL_MAX; omega)]

theorem dblOver_value (msl : Bool) (sign : UInt16) :
    (dblOver msl sign).1.value msl = EXTEND.signed sign ((2 : ℚ) ^ (1024 : Int)) := by
  have none : (roundWords 2047 ⟨0, 0⟩).number = 0 := by decide
  have exponent : (roundWords 2047 ⟨0, 0⟩).exp = 2047 := by decide
  refine (storeWords_number msl sign (w := roundWords 2047 ⟨0, 0⟩) (by omega) (by omega)).trans ?_
  have power : (2 : ℚ) ^ (1024 : Int) = 2 ^ 52 * 2 ^ (972 : Int) := by
    rw [← zpow_natCast (2 : ℚ) 52, ← zpow_add₀ (by norm_num)]
    norm_num
  rw [none, exponent, if_neg (by decide), power]
  norm_num

/-! ## Faithfulness -/

/-- A normalized mantissa close to the number it stands for: it may be wrong in
its last bit, as long as this moves it into no lower binade. -/
structure Near (m : Nat) (w : ℚ) : Prop where
  low : w - 2 < m
  high : (m : ℚ) < w + 2
  edge : 2 ^ 63 ≤ w ∨ m = 2 ^ 63

/-- `f` is an approximation of `v` that `compact` rounds faithfully. -/
structure Approximates (f : EXTEND) (v : ℚ) : Prop where
  normal : f.mantissa.Normalized
  low : -16000 ≤ f.exp
  high : f.exp ≤ 16000
  near : ∃ w, Near f.mantissa.value w ∧ v = EXTEND.signed f.sign (w * f.unit)

abbrev Format : ℚ → Prop := Signed 53 (-1074)

def largest : ℚ := (2 ^ 53 - 1) * (2 : ℚ) ^ (971 : Int)

theorem largest_format : Format largest := by
  refine ⟨2 ^ 53 - 1, 971, by norm_num, by norm_num, ?_⟩
  rw [largest, abs_of_nonneg (by positivity)]
  norm_num

/-- The distance of the rounded mantissa, in units of the 64-bit one. -/
theorem rounded_distance {m : Nat} {w : ℚ} (near : Near m w) (k : Nat) :
    |(roundEven (m / 2 ^ k) : ℚ) * 2 ^ 11 - w / 2 ^ k| <
      2 ^ 10 + 2 / 2 ^ k + if k = 0 then 0 else 1 := by
  have scale : (0 : ℚ) < 2 ^ k := by positivity
  obtain ⟨up, down⟩ := roundEven_near (m / 2 ^ k)
  have upper : ((m / 2 ^ k : Nat) : ℚ) ≤ roundEven (m / 2 ^ k) * 2 ^ 11 + 2 ^ 10 := by
    exact_mod_cast up
  have lower : (roundEven (m / 2 ^ k) : ℚ) * 2 ^ 11 ≤ (m / 2 ^ k : Nat) + 2 ^ 10 := by
    exact_mod_cast down
  have close : |(m : ℚ) / 2 ^ k - w / 2 ^ k| < 2 / 2 ^ k := by
    rw [← sub_div, abs_div, abs_of_pos scale]
    refine div_lt_div_of_pos_right (abs_lt.mpr ⟨?_, ?_⟩) scale
    · linarith [near.low]
    · linarith [near.high]
  have floorLow : ((m / 2 ^ k : Nat) : ℚ) ≤ m / 2 ^ k := by
    rw [le_div_iff₀ scale]
    exact_mod_cast Nat.div_mul_le_self m (2 ^ k)
  have floorHigh : (m : ℚ) / 2 ^ k ≤ (m / 2 ^ k : Nat) + if k = 0 then 0 else 1 := by
    split
    next zero =>
      subst zero
      simp
    next =>
      rw [div_le_iff₀ scale]
      have whole := Nat.lt_div_mul_add (a := m) (Nat.two_pow_pos k)
      have cast : (m : ℚ) < (m / 2 ^ k : Nat) * 2 ^ k + 2 ^ k := by exact_mod_cast whole
      linarith
  obtain ⟨closeLow, closeHigh⟩ := abs_lt.mp close
  refine abs_lt.mpr ⟨?_, ?_⟩
  · linarith
  · have nonneg : (0 : ℚ) ≤ if k = 0 then 0 else 1 := by split <;> norm_num
    linarith

/-- The rounded units lie on the same side of every double as the number. -/
theorem rounded_respects {w : ℚ} (near : Near f.mantissa.value w) :
    Respects Format (w * f.unit) (units f * (2 : ℚ) ^ place f) := by
  have unitPos := f.unit_pos
  have distance := rounded_distance near (surplus f)
  change |(units f : ℚ) * 2 ^ 11 - _| < _ at distance
  have onGrid : Multiple (place f) (units f * (2 : ℚ) ^ place f) := ⟨units f, by norm_num⟩
  -- one unit of the result is `2 ^ (11 + surplus)` units of the extended mantissa
  have ratio : (2 : ℚ) ^ place f = f.unit * 2 ^ surplus f * 2 ^ 11 := by
    rw [EXTEND.unit, ← zpow_natCast (2 : ℚ) (surplus f), ← zpow_natCast (2 : ℚ) 11,
      ← zpow_add₀ (by norm_num), ← zpow_add₀ (by norm_num)]
    congr 1
    unfold place surplus
    omega
  have scaled : (units f : ℚ) * 2 ^ place f - w * f.unit =
      ((units f : ℚ) * 2 ^ 11 - w / 2 ^ surplus f) * (f.unit * 2 ^ surplus f) := by
    rw [ratio]
    field_simp
  have closeBy (bound : |(units f : ℚ) * 2 ^ 11 - w / 2 ^ surplus f| < 2 ^ 11) :
      |(units f : ℚ) * 2 ^ place f - w * f.unit| < 2 ^ place f := by
    have positive : 0 < f.unit * 2 ^ surplus f := by positivity
    rw [scaled, abs_mul, abs_of_pos positive, ratio, mul_comm (f.unit * 2 ^ surplus f)]
    exact mul_lt_mul_of_pos_right bound positive
  by_cases normal : surplus f = 0
  · rw [normal, if_pos rfl, pow_zero, div_one, div_one] at distance
    rw [normal, pow_zero, mul_one] at ratio
    rcases near.edge with inside | power
    · refine respects_of_near (by decide) onGrid (closeBy ?_) ?_
      · rw [normal, pow_zero, div_one]
        linarith
      · rw [ratio]
        have binade : (2 : ℚ) ^ (((53 : Nat) : Int) - 1) = 2 ^ 52 := by norm_num
        nlinarith
    · -- the number may lie in the binade below, where the unit is half as large
      have number : units f = 2 ^ 52 := by
        unfold units
        rw [normal, power]
        rfl
      have half : (2 : ℚ) ^ place f = 2 ^ (place f - 1) * 2 := by
        rw [← zpow_add_one₀ (by norm_num)]
        congr 1
        omega
      have unit : (2 : ℚ) ^ (place f - 1) = f.unit * 2 ^ 10 := by
        linarith
      have value : (units f : ℚ) * 2 ^ place f = 2 ^ 63 * f.unit := by
        rw [number, ratio]
        ring
      obtain ⟨low, high, -⟩ := near
      rw [power] at low high
      push_cast at low high
      have finer : Multiple (place f - 1) (units f * (2 : ℚ) ^ place f) :=
        Multiple.of_finer (by omega) (units f)
      refine respects_of_near (by decide) finer ?_ ?_
      · rw [value, unit, ← sub_mul, abs_mul, abs_of_pos unitPos, mul_comm f.unit]
        refine mul_lt_mul_of_pos_right (abs_lt.mpr ⟨?_, ?_⟩) unitPos
        · linarith
        · linarith
      · have binade : (2 : ℚ) ^ (((53 : Nat) : Int) - 1) = 2 ^ 52 := by norm_num
        nlinarith
  · -- all doubles are multiples of the least one
    have least : place f = -1074 := by
      unfold place
      unfold surplus at normal
      omega
    rw [if_neg normal] at distance
    have share : (2 : ℚ) / 2 ^ surplus f ≤ 1 := by
      rw [div_le_one (by positivity)]
      calc (2 : ℚ) = 2 ^ 1 := by norm_num
        _ ≤ 2 ^ surplus f := pow_le_pow_right₀ (by norm_num) (by omega)
    refine respects_of_grid (fun s member => ?_) onGrid (closeBy (by linarith))
    rw [least]
    exact member.multiple

theorem signed_respects {precision : Nat} {least : Int} {sign : UInt16} {v t : ℚ}
    (respects : Respects (Signed precision least) v t) :
    Respects (Signed precision least) (EXTEND.signed sign v) (EXTEND.signed sign t) := by
  unfold EXTEND.signed
  split
  next => exact respects
  next => exact respects.neg fun s => Signed.neg s

theorem abs_signed (sign : UInt16) {a : ℚ} (nonneg : 0 ≤ a) : |EXTEND.signed sign a| = a := by
  unfold EXTEND.signed
  split
  next => exact abs_of_nonneg nonneg
  next => rw [abs_neg, abs_of_nonneg nonneg]

/-- An approximation of a number that is not too large packs into a finite
double on the same side of every double, and raises no trap. -/
theorem compact_approximates (msl : Bool) {v : ℚ} (approximates : Approximates f v)
    (bounded : |v| ≤ largest) :
    (compact msl f).1.Finite msl ∧ Respects Format v ((compact msl f).1.value msl) ∧
      (compact msl f).2 = [] := by
  obtain ⟨normal, low, high, w, near, value⟩ := approximates
  have unitPos := f.unit_pos
  have large : (2 : ℚ) ^ 63 ≤ f.mantissa.value := by exact_mod_cast normal
  have positive : 0 < w := by linarith [near.high]
  have magnitude : |v| = w * f.unit := by
    rw [value, abs_signed _ (by positivity)]
  rw [magnitude] at bounded
  have respects := rounded_respects near
  have result := (respects largest largest_format).2 bounded
  have inRange : f.exp ≤ 1023 := by
    by_contra beyond
    have unit : (2 : ℚ) ^ (961 : Int) ≤ f.unit := by
      exact zpow_le_zpow_right₀ (by norm_num) (by omega)
    have top : largest = (2 ^ 63 - 2 ^ 10) * (2 : ℚ) ^ (961 : Int) := by
      rw [largest, show (971 : Int) = 961 + (10 : Nat) by norm_num, zpow_add₀ (by norm_num),
        zpow_natCast]
      ring
    rw [top] at bounded
    have step : w * (2 : ℚ) ^ (961 : Int) ≤ (2 ^ 63 - 2 ^ 10) * (2 : ℚ) ^ (961 : Int) :=
      (mul_le_mul_of_nonneg_left unit positive.le).trans bounded
    have small : w ≤ 2 ^ 63 - 2 ^ 10 := le_of_mul_le_mul_right step (by positivity)
    linarith only [small, large, near.high]
  have room : f.exp = 1023 → units f < 2 ^ 53 := by
    intro last
    have unit : place f = 971 := by
      unfold place
      omega
    rw [unit, largest] at result
    have below := le_of_mul_le_mul_right result (by positivity)
    have count : (units f : ℚ) + 1 ≤ 2 ^ 53 := by linarith only [below]
    have natural : units f + 1 ≤ 2 ^ 53 := by exact_mod_cast count
    omega
  obtain ⟨finite, packed, quiet⟩ := compact_value msl normal (by omega) inRange room
  refine ⟨finite, ?_, quiet⟩
  rw [packed, value]
  exact signed_respects respects

theorem compact_zero (msl : Bool) (empty : f.mantissa = FltMantissa.zero) :
    compact msl f = (⟨0, 0⟩, []) := by
  unfold compact EXTEND.m1 EXTEND.m2
  rw [empty]
  rfl

end AckFormal.Fp.Compact
