import AckFormal.Fp.Compact
import AckFormal.Flt.Operations

/-!
# Addition and subtraction of extended numbers

`add_ext` and `sub_ext` shift the operand with the smaller exponent to the
other's power, which drops its low bits, and add or subtract the mantissas.  The
functions write their result through `e1`; here it is returned.
-/

namespace AckFormal.Fp.Arithmetic

open Flt.Mantissa Flt.Number Flt.Operations Extended Fp.Compact

def sftExt (e1 e2 : EXTEND) : EXTEND × EXTEND :=
  let diff := e1.exp - e2.exp
  if diff = 0 then (e1, e2)
  else if diff < 0 then
    let diff := -diff
    ({ e1 with exp := toShort (e1.exp + diff), mantissa := b64Sft e1.mantissa diff }, e2)
  else (e1, { e2 with exp := toShort (e2.exp + diff), mantissa := b64Sft e2.mantissa diff })

def Exceeds (e1 e2 : B64) : Prop :=
  e2.h32 > e1.h32 ∨ (e2.h32 = e1.h32 ∧ e2.l32 > e1.l32)

instance (e1 e2 : B64) : Decidable (Exceeds e1 e2) :=
  inferInstanceAs (Decidable (_ ∨ (_ ∧ _)))

def addMantissas (e1 e2 : EXTEND) : EXTEND :=
  let sum := b64Add e1.mantissa e2.mantissa
  if sum.2 then
    let half := b64Rsft sum.1
    { e1 with mantissa := ⟨half.h32 ||| 0x80000000, half.l32⟩, exp := toShort (e1.exp + 1) }
  else { e1 with mantissa := sum.1 }

/-- `add_ext`; the subtraction with its borrow is that of `flt_add`. -/
def addExt (e1 e2 : EXTEND) : EXTEND :=
  if e2.m1 ||| e2.m2 = 0 then e1
  else if e1.m1 ||| e1.m2 = 0 then e2
  else
    let (e1, e2) := sftExt e1 e2
    nrmExt
      (if e1.sign ≠ e2.sign then
        if Exceeds e1.mantissa e2.mantissa then
          { e2 with mantissa := subtractMantissa e2.mantissa e1.mantissa }
        else { e1 with mantissa := subtractMantissa e1.mantissa e2.mantissa }
      else addMantissas e1 e2)

def subExt (e1 e2 : EXTEND) : EXTEND :=
  if e2.m1 ||| e2.m2 = 0 then e1
  else if e1.m1 ||| e1.m2 = 0 then { e2 with sign := if e2.sign ≠ 0 then 0 else 1 }
  else
    let (e1, e2) := sftExt e1 e2
    nrmExt
      (if e1.sign ≠ e2.sign then addMantissas e1 e2
      else if Exceeds e1.mantissa e2.mantissa then
        { e2 with
          mantissa := subtractMantissa e2.mantissa e1.mantissa
          sign := if e2.sign ≠ 0 then 0 else 1 }
      else { e1 with mantissa := subtractMantissa e1.mantissa e2.mantissa })

/-! ## The mantissas as numbers -/

theorem exceeds_iff (e1 e2 : B64) : Exceeds e1 e2 ↔ e1.value < e2.value := by
  have low1 := e1.l32.toNat_lt
  have low2 := e2.l32.toNat_lt
  unfold Exceeds FltMantissa.value
  rw [gt_iff_lt, gt_iff_lt, UInt32.lt_iff_toNat_lt, UInt32.lt_iff_toNat_lt, ← UInt32.toNat_inj]
  omega

variable {e1 e2 : EXTEND} {v1 v2 : ℚ}

theorem addMantissas_small (small : e1.mantissa.value + e2.mantissa.value < 2 ^ 64) :
    ∃ total : B64, addMantissas e1 e2 = ⟨e1.sign, e1.exp, total⟩ ∧
      total.value = e1.mantissa.value + e2.mantissa.value := by
  have none : ¬ (b64Add e1.mantissa e2.mantissa).2 = true := by
    unfold b64Add
    rw [fltB64Add_carry, decide_eq_true_eq]
    omega
  refine ⟨(b64Add e1.mantissa e2.mantissa).1, if_neg none, ?_⟩
  exact (fltB64Add_value _ _).trans (Nat.mod_eq_of_lt small)

theorem addMantissas_carry (large : 2 ^ 64 ≤ e1.mantissa.value + e2.mantissa.value) :
    ∃ total : B64, addMantissas e1 e2 = ⟨e1.sign, toShort (e1.exp + 1), total⟩ ∧
      total.value = (e1.mantissa.value + e2.mantissa.value) / 2 := by
  have bound1 := e1.mantissa.value_lt
  have bound2 := e2.mantissa.value_lt
  have carry : (b64Add e1.mantissa e2.mantissa).2 = true := by
    unfold b64Add
    rw [fltB64Add_carry, decide_eq_true_eq]
    exact large
  have sum := fltB64Add_value e1.mantissa e2.mantissa
  have half := b64Rsft_value (fltB64Add e1.mantissa e2.mantissa).1
  refine ⟨_, if_pos carry, (set_top ?_).trans ?_⟩
  · change (b64Rsft (fltB64Add e1.mantissa e2.mantissa).1).value < 2 ^ 63
    omega
  · change (b64Rsft (fltB64Add e1.mantissa e2.mantissa).1).value + 2 ^ 63 = _
    omega

theorem nrmExt_normalized {e : EXTEND} (normal : e.mantissa.Normalized) : nrmExt e = e := by
  have high := FltMantissa.normalized_iff_high.mp normal
  have word : ¬ e.m1 = 0 := fun zero => by
    rw [show e.mantissa.h32 = 0 from zero, UInt32.toNat_zero] at high
    omega
  have bit : ¬ e.m1 &&& NORMBIT = 0 := by
    unfold NORMBIT
    rw [top_and_eq_zero]
    exact not_lt.mpr high
  unfold nrmExt
  rw [if_neg word, if_neg bit, ite_self]

/-! ## Aligned operands -/

/-- Two mantissas `a` and `b` of one power that stand for `x` and `y`: bits are
only missing where the shift went so far that `x` or `y` is small. -/
structure Aligned (a b : Nat) (x y : ℚ) : Prop where
  lowLeft : a ≤ x
  highLeft : x < a + 1
  lowRight : b ≤ y
  highRight : y < b + 1
  large : 2 ^ 63 ≤ a ∨ 2 ^ 63 ≤ b
  kept : (x = a ∧ y = b) ∨ (x = a ∧ y < 2 ^ 62) ∨ (y = b ∧ x < 2 ^ 62)

namespace Aligned

variable {a b : Nat} {x y : ℚ}

variable (aligned : Aligned a b x y)
include aligned

theorem symm : Aligned b a y x where
  lowLeft := aligned.lowRight
  highLeft := aligned.highRight
  lowRight := aligned.lowLeft
  highRight := aligned.highLeft
  large := aligned.large.symm
  kept := by
    rcases aligned.kept with ⟨left, right⟩ | left | right
    · exact Or.inl ⟨right, left⟩
    · exact Or.inr (Or.inr left)
    · exact Or.inr (Or.inl right)

theorem sum : Near (a + b) (x + y) := by
  obtain ⟨lowLeft, highLeft, lowRight, highRight, large, -⟩ := aligned
  have total : 2 ^ 63 ≤ a + b := by omega
  have cast : (2 : ℚ) ^ 63 ≤ a + b := by exact_mod_cast total
  refine ⟨?_, ?_, Or.inl ?_⟩
  · push_cast
    linarith
  · push_cast
    linarith
  · linarith

theorem sum_carry (large : 2 ^ 64 ≤ a + b) :
    Near ((a + b) / 2) ((x + y) / 2) := by
  obtain ⟨lowLeft, highLeft, lowRight, highRight, -, -⟩ := aligned
  have cast : (2 : ℚ) ^ 64 ≤ a + b := by exact_mod_cast large
  have up : (a : ℚ) + b ≤ 2 * ((a + b) / 2 : Nat) + 1 := by
    exact_mod_cast (by omega : a + b ≤ 2 * ((a + b) / 2) + 1)
  have down : 2 * (((a + b) / 2 : Nat) : ℚ) ≤ a + b := by
    exact_mod_cast (by omega : 2 * ((a + b) / 2) ≤ a + b)
  refine ⟨?_, ?_, Or.inl ?_⟩
  · linarith
  · linarith
  · linarith

theorem eq_of_eq (same : a = b) : x = y := by
  obtain ⟨lowLeft, -, lowRight, -, large, kept⟩ := aligned
  subst same
  have cast : (2 : ℚ) ^ 63 ≤ a := by exact_mod_cast large.elim id id
  rcases kept with ⟨left, right⟩ | ⟨-, small⟩ | ⟨right, small⟩
  · rw [left, right]
  · linarith
  · linarith

/-- A difference is normalised by one place at most when bits are missing. -/
theorem difference (less : b < a) {s : Nat}
    (low : 2 ^ 63 ≤ (a - b) * 2 ^ s) (high : (a - b) * 2 ^ s < 2 ^ 64) :
    Near ((a - b) * 2 ^ s) ((x - y) * 2 ^ s) := by
  obtain ⟨lowLeft, highLeft, lowRight, highRight, large, kept⟩ := aligned
  have cast : (((a - b) * 2 ^ s : Nat) : ℚ) = ((a : ℚ) - b) * 2 ^ s := by
    rw [Nat.cast_mul, Nat.cast_sub less.le]
    push_cast
    rfl
  have floor : (2 : ℚ) ^ 63 ≤ ((a : ℚ) - b) * 2 ^ s := by
    rw [← cast]
    exact_mod_cast low
  rcases kept with ⟨left, right⟩ | ⟨left, small⟩ | ⟨right, small⟩
  · rw [left, right]
    refine ⟨?_, ?_, Or.inl floor⟩
    · rw [cast]
      linarith
    · rw [cast]
      linarith
  · have tail : b < 2 ^ 62 := by
      have bound : (b : ℚ) < 2 ^ 62 := by linarith
      exact_mod_cast bound
    have shift : s = 0 ∨ s = 1 := by
      by_contra neither
      have twice : 2 ^ 2 ≤ 2 ^ s := Nat.pow_le_pow_right (by decide) (by omega)
      have beyond : (a - b) * 2 ^ 2 ≤ (a - b) * 2 ^ s := Nat.mul_le_mul_left _ twice
      omega
    have edge : 2 ^ 63 ≤ (x - y) * 2 ^ s ∨ (a - b) * 2 ^ s = 2 ^ 63 := by
      by_cases power : (a - b) * 2 ^ s = 2 ^ 63
      · exact Or.inr power
      · refine Or.inl ?_
        rcases shift with none | one
        · subst none
          have above : 2 ^ 63 + 1 + b ≤ a := by omega
          have bound : (2 : ℚ) ^ 63 + 1 + b ≤ a := by exact_mod_cast above
          linarith
        · subst one
          have above : 2 ^ 62 + 1 + b ≤ a := by omega
          have bound : (2 : ℚ) ^ 62 + 1 + b ≤ a := by exact_mod_cast above
          linarith
    refine ⟨?_, ?_, edge⟩
    · rw [cast]
      rcases shift with none | one
      · subst none
        linarith
      · subst one
        linarith
    · rw [cast]
      rcases shift with none | one
      · subst none
        linarith
      · subst one
        linarith
  · -- the larger mantissa would be the one that was shifted far
    have tail : a < 2 ^ 62 := by
      have bound : (a : ℚ) < 2 ^ 62 := by linarith
      exact_mod_cast bound
    omega

end Aligned

theorem shifted_down {m : Nat} (grid : ∃ k, m = k * 2 ^ 11) (bound : m < 2 ^ 64) (d : Nat) :
    ((m / 2 ^ d : Nat) : ℚ) ≤ m / 2 ^ d ∧ (m : ℚ) / 2 ^ d < (m / 2 ^ d : Nat) + 1 ∧
      ((m : ℚ) / 2 ^ d = (m / 2 ^ d : Nat) ∨ (m : ℚ) / 2 ^ d < 2 ^ 62) := by
  have scale : (0 : ℚ) < 2 ^ d := by positivity
  refine ⟨?_, ?_, ?_⟩
  · rw [le_div_iff₀ scale]
    exact_mod_cast Nat.div_mul_le_self m (2 ^ d)
  · rw [div_lt_iff₀ scale, add_mul, one_mul]
    exact_mod_cast Nat.lt_div_mul_add (a := m) (Nat.two_pow_pos d)
  · rcases Nat.lt_or_ge 1 d with far | near
    · refine Or.inr ((div_lt_iff₀ scale).mpr ?_)
      have most : (m : ℚ) < 2 ^ 64 := by exact_mod_cast bound
      calc (m : ℚ) < 2 ^ 62 * 2 ^ 2 := by linarith
        _ ≤ 2 ^ 62 * 2 ^ d :=
            mul_le_mul_of_nonneg_left (pow_le_pow_right₀ (by norm_num) far) (by positivity)
    · -- the low bits that are dropped were clear
      refine Or.inl ?_
      obtain ⟨k, rfl⟩ := grid
      have whole : k * 2 ^ 11 = k * 2 ^ (11 - d) * 2 ^ d := by
        rw [Nat.mul_assoc, ← pow_add]
        congr 2
        omega
      rw [whole, Nat.mul_div_cancel _ (Nat.two_pow_pos d), Nat.cast_mul (k * 2 ^ (11 - d))]
      push_cast
      field_simp

structure Adjusted (c1 c2 : EXTEND) (v1 v2 : ℚ) : Prop where
  same : c2.exp = c1.exp
  low : -1100 ≤ c1.exp
  high : c1.exp ≤ 1023
  sign1 : c1.sign = 0 ∨ c1.sign = 0x8000
  sign2 : c2.sign = 0 ∨ c2.sign = 0x8000
  aligned : ∃ x y, Aligned c1.mantissa.value c2.mantissa.value x y ∧
    v1 = EXTEND.signed c1.sign (x * c1.unit) ∧ v2 = EXTEND.signed c2.sign (y * c1.unit)

/-- Shifting gives both numbers the larger exponent. -/
theorem sftExt_adjusted (first : Unpacked e1 v1) (second : Unpacked e2 v2)
    (nonzero1 : e1.mantissa ≠ FltMantissa.zero) (nonzero2 : e2.mantissa ≠ FltMantissa.zero) :
    Adjusted (sftExt e1 e2).1 (sftExt e1 e2).2 v1 v2 := by
  obtain ⟨normal1, low1, high1⟩ := first.range nonzero1
  obtain ⟨normal2, low2, high2⟩ := second.range nonzero2
  have value1 := first.value
  have value2 := second.value
  have scaled {e : EXTEND} {E : Int} (d : Nat) (reach : E = e.exp + d) :
      (e.mantissa.value : ℚ) / 2 ^ d * (2 : ℚ) ^ (E - 63) = e.mantissa.value * e.unit := by
    rw [reach, EXTEND.unit, show e.exp + (d : Int) - 63 = e.exp - 63 + d by ring,
      zpow_add₀ (by norm_num), zpow_natCast]
    field_simp
  rcases lt_trichotomy e1.exp e2.exp with below | equal | above
  · obtain ⟨d, distance⟩ : ∃ d : Nat, e2.exp = e1.exp + d := ⟨(e2.exp - e1.exp).toNat, by omega⟩
    have result : sftExt e1 e2 = (⟨e1.sign, e2.exp, b64Sft e1.mantissa d⟩, e2) := by
      unfold sftExt
      dsimp only
      rw [if_neg (by omega), if_pos (by omega), show -(e1.exp - e2.exp) = d by omega,
        toShort_of_range (by omega) (by omega), ← distance]
    obtain ⟨lower, upper, kept⟩ := shifted_down first.grid e1.mantissa.value_lt d
    rw [result]
    refine ⟨rfl, low2, high2, first.sign, second.sign, (e1.mantissa.value : ℚ) / 2 ^ d,
      e2.mantissa.value, ⟨?_, ?_, le_rfl, lt_add_one _, Or.inr normal2, ?_⟩, ?_, value2.symm⟩
    · rw [b64Sft_right]
      exact lower
    · rw [b64Sft_right]
      exact upper
    · rw [b64Sft_right]
      exact kept.imp (fun exact => ⟨exact, rfl⟩) fun small => Or.inr ⟨rfl, small⟩
    · rw [← value1]
      exact congrArg (EXTEND.signed e1.sign) (scaled d distance).symm
  · have result : sftExt e1 e2 = (e1, e2) := by
      unfold sftExt
      rw [if_pos (by omega)]
    have unit : e2.unit = e1.unit := by
      unfold EXTEND.unit
      rw [equal]
    rw [result]
    refine ⟨equal.symm, low1, high1, first.sign, second.sign, e1.mantissa.value,
      e2.mantissa.value, ⟨le_rfl, lt_add_one _, le_rfl, lt_add_one _, Or.inl normal1,
        Or.inl ⟨rfl, rfl⟩⟩, value1.symm, ?_⟩
    rw [← unit]
    exact value2.symm
  · obtain ⟨d, distance⟩ : ∃ d : Nat, e1.exp = e2.exp + d := ⟨(e1.exp - e2.exp).toNat, by omega⟩
    have result : sftExt e1 e2 = (e1, ⟨e2.sign, e1.exp, b64Sft e2.mantissa d⟩) := by
      unfold sftExt
      rw [if_neg (by omega), if_neg (by omega), show e1.exp - e2.exp = d by omega,
        toShort_of_range (by omega) (by omega), ← distance]
    obtain ⟨lower, upper, kept⟩ := shifted_down second.grid e2.mantissa.value_lt d
    rw [result]
    refine ⟨rfl, low1, high1, first.sign, second.sign, e1.mantissa.value,
      (e2.mantissa.value : ℚ) / 2 ^ d, ⟨le_rfl, lt_add_one _, ?_, ?_, Or.inl normal1, ?_⟩,
      value1.symm, ?_⟩
    · rw [b64Sft_right]
      exact lower
    · rw [b64Sft_right]
      exact upper
    · rw [b64Sft_right]
      exact kept.imp (fun exact => ⟨rfl, exact⟩) fun small => Or.inl ⟨rfl, small⟩
    · rw [← value2]
      exact congrArg (EXTEND.signed e2.sign) (scaled d distance).symm

/-! ## The results -/

/-- What an operation hands to `compact` for the exact result `v`. -/
def Delivers (f : EXTEND) (v : ℚ) : Prop :=
  (f.mantissa = FltMantissa.zero ∧ v = 0) ∨ Approximates f v

theorem unpacked_delivers {f : EXTEND} {v : ℚ} (unpacked : Unpacked f v) : Delivers f v := by
  rcases unpacked.normal with empty | normal
  · exact Or.inl ⟨empty, unpacked.eq_zero empty⟩
  · have large : (2 : ℚ) ^ 63 ≤ f.mantissa.value := by exact_mod_cast normal
    have low := unpacked.low
    have high := unpacked.high
    refine Or.inr ⟨normal, by omega, by omega, f.mantissa.value, ?_, unpacked.value.symm⟩
    exact ⟨by linarith, by linarith, Or.inl large⟩

theorem sum_delivers {c1 c2 : EXTEND} {x y : ℚ} (low : -1100 ≤ c1.exp) (high : c1.exp ≤ 1023)
    (aligned : Aligned c1.mantissa.value c2.mantissa.value x y) :
    Delivers (nrmExt (addMantissas c1 c2)) (EXTEND.signed c1.sign ((x + y) * c1.unit)) := by
  have next : toShort (c1.exp + 1) = c1.exp + 1 := toShort_of_range (by omega) (by omega)
  have range : -16000 ≤ c1.exp ∧ c1.exp + 1 ≤ 16000 := by omega
  refine Or.inr ?_
  rcases Nat.lt_or_ge (c1.mantissa.value + c2.mantissa.value) (2 ^ 64) with small | large
  · obtain ⟨total, sum, value⟩ := addMantissas_small small
    have normal : total.Normalized := by
      have either := aligned.large
      unfold FltMantissa.Normalized
      omega
    rw [sum, nrmExt_normalized (e := ⟨c1.sign, c1.exp, total⟩) normal]
    refine ⟨normal, range.1, (Int.le_add_one le_rfl).trans range.2, x + y, ?_, rfl⟩
    rw [value]
    exact aligned.sum
  · obtain ⟨total, sum, value⟩ := addMantissas_carry large
    have normal : total.Normalized := by
      unfold FltMantissa.Normalized
      omega
    rw [sum, next, nrmExt_normalized (e := ⟨c1.sign, c1.exp + 1, total⟩) normal]
    refine ⟨normal, range.1.trans (Int.le_add_one le_rfl), range.2, (x + y) / 2, ?_, ?_⟩
    · rw [value]
      exact aligned.sum_carry large
    · congr 1
      unfold EXTEND.unit
      rw [show c1.exp + 1 - 63 = c1.exp - 63 + 1 by ring, zpow_add_one₀ (by norm_num)]
      ring

/-- The mantissas are subtracted, and the result is normalized. -/
theorem difference_delivers {a b : B64} {x y : ℚ} (sign : UInt16) {exp : Int}
    (low : -1100 ≤ exp) (high : exp ≤ 1023) (aligned : Aligned a.value b.value x y)
    (below : b.value ≤ a.value) :
    Delivers (nrmExt ⟨sign, exp, subtractMantissa a b⟩)
      (EXTEND.signed sign ((x - y) * (2 : ℚ) ^ (exp - 63))) := by
  have value := subtractMantissa_value below
  rcases below.lt_or_eq with less | same
  · have nonzero : subtractMantissa a b ≠ FltMantissa.zero := by
      refine mt FltMantissa.value_eq_zero.mpr ?_
      omega
    obtain ⟨s, bound, shifted, normal, kept, moved⟩ :=
      nrmExt_spec (e := ⟨sign, exp, subtractMantissa a b⟩) nonzero (by dsimp only; omega)
        (by dsimp only; omega)
    have limit := (nrmExt ⟨sign, exp, subtractMantissa a b⟩).mantissa.value_lt
    dsimp only at shifted kept moved
    rw [value] at shifted
    have normalLow : 2 ^ 63 ≤ _ := normal
    rw [shifted] at limit normalLow
    refine Or.inr ⟨normal, by omega, by omega, (x - y) * 2 ^ s, ?_, ?_⟩
    · rw [shifted]
      exact aligned.difference less normalLow limit
    · rw [kept, EXTEND.unit, moved]
      rw [show exp - 63 = exp - s - 63 + (s : Nat) by ring, zpow_add₀ (by norm_num), zpow_natCast]
      ring_nf
  · have empty : subtractMantissa a b = FltMantissa.zero :=
      FltMantissa.value_eq_zero.mp (by omega)
    have equal := aligned.eq_of_eq same.symm
    rw [nrmExt_zero (e := ⟨sign, exp, subtractMantissa a b⟩) empty]
    refine Or.inl ⟨empty, ?_⟩
    rw [equal, sub_self, zero_mul]
    simp [EXTEND.signed]

theorem signed_eq_neg {s t : UInt16} (first : s = 0 ∨ s = 0x8000) (second : t = 0 ∨ t = 0x8000)
    (differ : s ≠ t) (a : ℚ) : EXTEND.signed t a = -EXTEND.signed s a := by
  rcases first with rfl | rfl <;> rcases second with rfl | rfl <;>
    simp_all [EXTEND.signed]

theorem signed_flip (s : UInt16) (a : ℚ) :
    EXTEND.signed (if s ≠ 0 then 0 else 1) a = -EXTEND.signed s a := by
  unfold EXTEND.signed
  by_cases zero : s = 0
  · simp [zero]
  · simp [zero]

theorem signed_add (s : UInt16) (a b : ℚ) :
    EXTEND.signed s a + EXTEND.signed s b = EXTEND.signed s (a + b) := by
  unfold EXTEND.signed
  split
  next => rfl
  next => ring

theorem signed_sub (s : UInt16) (a b : ℚ) :
    EXTEND.signed s a - EXTEND.signed s b = EXTEND.signed s (a - b) := by
  unfold EXTEND.signed
  split
  next => rfl
  next => ring

theorem signed_neg (s : UInt16) (a : ℚ) : -EXTEND.signed s a = EXTEND.signed s (-a) := by
  unfold EXTEND.signed
  split
  next => rfl
  next => ring

/-- The difference of two mantissas, the smaller one taken from the larger one. -/
theorem differences_delivers {c1 c2 : EXTEND} {s : UInt16} {x y : ℚ} (same : c2.exp = c1.exp)
    (low : -1100 ≤ c1.exp) (high : c1.exp ≤ 1023)
    (aligned : Aligned c1.mantissa.value c2.mantissa.value x y)
    (flip : ∀ a, EXTEND.signed s a = -EXTEND.signed c1.sign a) :
    Delivers (nrmExt (if Exceeds c1.mantissa c2.mantissa then
        { c2 with mantissa := subtractMantissa c2.mantissa c1.mantissa, sign := s }
      else { c1 with mantissa := subtractMantissa c1.mantissa c2.mantissa }))
      (EXTEND.signed c1.sign ((x - y) * c1.unit)) := by
  by_cases exceeds : Exceeds c1.mantissa c2.mantissa
  · have less := (exceeds_iff _ _).mp exceeds
    have result := difference_delivers s low high aligned.symm less.le
    rw [← same] at result
    rw [if_pos exceeds, ← neg_sub y x, neg_mul, ← signed_neg, ← flip, EXTEND.unit, ← same]
    exact result
  · have less := not_lt.mp (mt (exceeds_iff _ _).mpr exceeds)
    rw [if_neg exceeds]
    exact difference_delivers c1.sign low high aligned less

theorem addExt_delivers (first : Unpacked e1 v1) (second : Unpacked e2 v2) :
    Delivers (addExt e1 e2) (v1 + v2) := by
  unfold addExt
  by_cases empty2 : e2.mantissa = FltMantissa.zero
  · rw [if_pos (FltMantissa.or_eq_zero.mpr empty2), second.eq_zero empty2, add_zero]
    exact unpacked_delivers first
  rw [if_neg (mt FltMantissa.or_eq_zero.mp empty2)]
  by_cases empty1 : e1.mantissa = FltMantissa.zero
  · rw [if_pos (FltMantissa.or_eq_zero.mpr empty1), first.eq_zero empty1, zero_add]
    exact unpacked_delivers second
  rw [if_neg (mt FltMantissa.or_eq_zero.mp empty1)]
  have adjusted := sftExt_adjusted first second empty1 empty2
  generalize sftExt e1 e2 = c at adjusted ⊢
  obtain ⟨c1, c2⟩ := c
  dsimp only at adjusted ⊢
  obtain ⟨same, low, high, sign1, sign2, x, y, aligned, rfl, rfl⟩ := adjusted
  by_cases opposite : c1.sign ≠ c2.sign
  · have flip := signed_eq_neg sign1 sign2 opposite
    rw [if_pos opposite, flip, signed_neg, signed_add, ← neg_mul, ← add_mul, ← sub_eq_add_neg]
    exact differences_delivers same low high aligned flip
  · have equal : c1.sign = c2.sign := not_not.mp opposite
    rw [if_neg opposite, ← equal, signed_add, ← add_mul]
    exact sum_delivers low high aligned

theorem subExt_delivers (first : Unpacked e1 v1) (second : Unpacked e2 v2) :
    Delivers (subExt e1 e2) (v1 - v2) := by
  unfold subExt
  by_cases empty2 : e2.mantissa = FltMantissa.zero
  · rw [if_pos (FltMantissa.or_eq_zero.mpr empty2), second.eq_zero empty2, sub_zero]
    exact unpacked_delivers first
  rw [if_neg (mt FltMantissa.or_eq_zero.mp empty2)]
  by_cases empty1 : e1.mantissa = FltMantissa.zero
  · rw [if_pos (FltMantissa.or_eq_zero.mpr empty1), first.eq_zero empty1, zero_sub]
    rcases unpacked_delivers second with ⟨zero, -⟩ | ⟨normal, low, high, w, near, value⟩
    · exact absurd zero empty2
    · refine Or.inr ⟨normal, low, high, w, near, ?_⟩
      rw [value]
      exact (signed_flip e2.sign _).symm
  rw [if_neg (mt FltMantissa.or_eq_zero.mp empty1)]
  have adjusted := sftExt_adjusted first second empty1 empty2
  generalize sftExt e1 e2 = c at adjusted ⊢
  obtain ⟨c1, c2⟩ := c
  dsimp only at adjusted ⊢
  obtain ⟨same, low, high, sign1, sign2, x, y, aligned, rfl, rfl⟩ := adjusted
  by_cases opposite : c1.sign ≠ c2.sign
  · rw [if_pos opposite, signed_eq_neg sign1 sign2 opposite, sub_neg_eq_add, signed_add, ← add_mul]
    exact sum_delivers low high aligned
  · have equal : c1.sign = c2.sign := not_not.mp opposite
    rw [if_neg opposite, ← equal, signed_sub, ← sub_mul]
    exact differences_delivers same low high aligned (signed_flip c1.sign)

end AckFormal.Fp.Arithmetic
