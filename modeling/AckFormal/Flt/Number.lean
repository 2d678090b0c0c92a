import AckFormal.Flt.Mantissa
import AckFormal.Lib.Digits

/-!
# Extended precision numbers

`flt_arith` holds a sign, an exponent kept in a `short`, and a 64-bit mantissa
that denotes a number in `[1, 2)`.  This module has the normaliser `flt_nrm`,
the range check `flt_chk` and the operations built on them.

Every operation resets `flt_status` before it does anything else, so that the
status it leaves is part of its result; the two exceptions, `flt_modf` and
`flt_arith2flt` of zero, take the status they find as an argument.
-/

namespace AckFormal.Flt.Number

open Mantissa Lib.Digits

inductive FltStatus where
  | ok
  | ovfl
  | unfl
  | div0
  | noflt
  | btsm
  deriving DecidableEq

def extMax : Int := 16384

def extMin : Int := -16384

def toShort (x : Int) : Int :=
  (x + 32768) % 65536 - 32768

theorem toShort_of_range {x : Int} (low : -32768 ≤ x) (high : x < 32768) : toShort x = x := by
  unfold toShort
  omega

theorem toShort_add (x y : Int) : toShort (toShort x + y) = toShort (x + y) := by
  unfold toShort
  omega

structure FltArith where
  sign : Bool
  exp : Int
  mantissa : FltMantissa
  deriving DecidableEq

namespace FltArith

def zero : FltArith := ⟨false, 0, FltMantissa.zero⟩

abbrev m1 (e : FltArith) : UInt32 := e.mantissa.h32

abbrev m2 (e : FltArith) : UInt32 := e.mantissa.l32

/-- `flt_umin`, and the sign flip inside `flt_sub`. -/
def negate (e : FltArith) : FltArith := { e with sign := !e.sign }

/-- A number is canonical when it is the zero above, or has bit 63 of the
mantissa set and an exponent inside the range. -/
def Canonical (e : FltArith) : Prop :=
  e = zero ∨ (e.mantissa.Normalized ∧ extMin < e.exp ∧ e.exp < extMax)

instance (e : FltArith) : Decidable e.Canonical :=
  inferInstanceAs (Decidable (_ ∨ (_ ∧ extMin < e.exp ∧ e.exp < extMax)))

def Overflowed (e : FltArith) : Prop :=
  e.mantissa.Normalized ∧ e.exp = extMax

end FltArith

open FltArith

/-! ## Normalising -/

/-- The scan of `flt_nrm` for the highest bit of a word whose top bit is clear. -/
def nrmScan (m1 : UInt32) : Nat → UInt32 → Int → Int
  | 0, _, cnt => cnt
  | fuel + 1, l, cnt =>
    if l &&& m1 = 0 then nrmScan m1 fuel (l >>> 1) (cnt - 1) else cnt

/-- The second half of `flt_nrm`: the high word is not zero any more. -/
def nrmBits (e : FltArith) : FltArith :=
  if e.m1 &&& 0x80000000 = 0 then
    let cnt := nrmScan e.m1 31 0x40000000 (-1)
    { e with exp := toShort (e.exp + cnt), mantissa := fltB64Sft e.mantissa cnt }
  else e

def fltNrm (e : FltArith) : FltArith :=
  if e.m1 ||| e.m2 = 0 then { e with exp := 0, sign := false }
  else if e.m1 = 0 then
    nrmBits { e with mantissa := ⟨e.m2, 0⟩, exp := toShort (e.exp - 32) }
  else nrmBits e

theorem mask_and_eq_zero {l m : UInt32} {k : Nat} (mask : l.toNat = 2 ^ k) :
    l &&& m = 0 ↔ m.toNat / 2 ^ k % 2 = 0 := by
  rw [← UInt32.toNat_inj, UInt32.toNat_and, mask, Nat.and_comm, Nat.and_two_pow,
    Nat.testBit_eq_decide_div_mod_eq]
  by_cases bit : m.toNat / 2 ^ k % 2 = 1
  · simp [bit]
  · have clear : m.toNat / 2 ^ k % 2 = 0 := by omega
    simp [clear]

/-- The scan counts the places down to the highest bit. -/
theorem nrmScan_spec {m1 : UInt32} (nonzero : 0 < m1.toNat) (k : Nat) (l : UInt32)
    (mask : l.toNat = 2 ^ k) (below : m1.toNat < 2 ^ (k + 1)) (fuel : Nat) (enough : k < fuel)
    (cnt : Int) :
    ∃ s : Nat, s ≤ k ∧ nrmScan m1 fuel l cnt = cnt - s ∧
      2 ^ (k - s) ≤ m1.toNat ∧ m1.toNat < 2 ^ (k - s + 1) := by
  induction k generalizing l fuel cnt with
  | zero =>
    obtain ⟨fuel, rfl⟩ : ∃ rest, fuel = rest + 1 := ⟨fuel - 1, by omega⟩
    have one : m1.toNat = 1 := by omega
    refine ⟨0, le_rfl, ?_, by omega, by omega⟩
    rw [nrmScan, if_neg]
    · simp
    · rw [mask_and_eq_zero mask, one]
      decide
  | succ k ih =>
    obtain ⟨fuel, rfl⟩ : ∃ rest, fuel = rest + 1 := ⟨fuel - 1, by omega⟩
    rw [nrmScan]
    split
    next clear =>
      rw [mask_and_eq_zero mask] at clear
      have halved : (l >>> 1).toNat = 2 ^ k := by
        rw [UInt32.toNat_shiftRight, mask]
        change 2 ^ (k + 1) >>> 1 = 2 ^ k
        rw [Nat.shiftRight_eq_div_pow, pow_succ, pow_one, Nat.mul_div_cancel _ (by decide)]
      have smaller : m1.toNat < 2 ^ (k + 1) := by
        have quotient : m1.toNat / 2 ^ (k + 1) < 2 := by
          rwa [Nat.div_lt_iff_lt_mul (Nat.two_pow_pos _), ← pow_succ']
        rw [Nat.mod_eq_of_lt quotient] at clear
        exact (Nat.div_eq_zero_iff_lt (Nat.two_pow_pos _)).mp clear
      obtain ⟨s, bound, result, low, high⟩ :=
        ih (l >>> 1) halved smaller fuel (by omega) (cnt - 1)
      refine ⟨s + 1, by omega, ?_, ?_, ?_⟩
      · rw [result]
        push_cast
        ring
      · rwa [Nat.succ_sub_succ]
      · rwa [Nat.succ_sub_succ]
    next set =>
      rw [mask_and_eq_zero mask] at set
      refine ⟨0, Nat.zero_le _, by simp, ?_, by simpa using below⟩
      rw [Nat.sub_zero]
      by_contra small
      refine set ?_
      rw [Nat.div_eq_of_lt (by omega)]

theorem top_and_eq_zero (m : UInt32) : m &&& 0x80000000 = 0 ↔ m.toNat < 2 ^ 31 := by
  have bound := m.toNat_lt
  have mask : (0x80000000 : UInt32).toNat = 2 ^ 31 := rfl
  rw [UInt32.and_comm, mask_and_eq_zero mask]
  omega

theorem fltNrm_zero {e : FltArith} (empty : e.mantissa = FltMantissa.zero) :
    fltNrm e = zero := by
  rw [fltNrm, if_pos (FltMantissa.or_eq_zero.mpr empty)]
  unfold FltArith.zero
  rw [empty]

variable {e : FltArith}

/-- The second half shifts the highest bit up to the top. -/
theorem nrmBits_spec (nonzero : 0 < e.mantissa.h32.toNat) :
    ∃ s : Nat, s ≤ 31 ∧ (nrmBits e).mantissa.value = e.mantissa.value * 2 ^ s ∧
      (nrmBits e).mantissa.Normalized ∧ (nrmBits e).sign = e.sign ∧
      (nrmBits e).exp = if s = 0 then e.exp else toShort (e.exp - s) := by
  have low := e.mantissa.l32.toNat_lt
  unfold nrmBits
  split
  next clear =>
    rw [top_and_eq_zero] at clear
    obtain ⟨s, bound, count, above, below⟩ :=
      nrmScan_spec nonzero 30 0x40000000 rfl clear 31 (by decide) (-1)
    have shift : nrmScan e.mantissa.h32 31 0x40000000 (-1) = -((s + 1 : Nat) : Int) := by
      rw [count]
      push_cast
      ring
    have fits : e.mantissa.value * 2 ^ (s + 1) < 2 ^ 64 := by
      have valueBound : e.mantissa.value < 2 ^ (30 - s + 1) * 2 ^ 32 := by
        unfold FltMantissa.value
        omega
      calc e.mantissa.value * 2 ^ (s + 1)
          < 2 ^ (30 - s + 1) * 2 ^ 32 * 2 ^ (s + 1) :=
            Nat.mul_lt_mul_of_pos_right valueBound (Nat.two_pow_pos _)
        _ = 2 ^ 64 := by
            rw [← pow_add, ← pow_add]
            congr 1
            omega
    have shifted : (fltB64Sft e.mantissa (-((s + 1 : Nat) : Int))).value =
        e.mantissa.value * 2 ^ (s + 1) := by
      rw [fltB64Sft_left _ (by omega), Nat.mod_eq_of_lt fits]
    rw [shift]
    refine ⟨s + 1, by omega, shifted, ?_, rfl, ?_⟩
    · unfold FltMantissa.Normalized
      rw [shifted]
      calc 2 ^ 63 = 2 ^ (30 - s) * 2 ^ 32 * 2 ^ (s + 1) := by
            rw [← pow_add, ← pow_add]
            congr 1
            omega
        _ ≤ e.mantissa.value * 2 ^ (s + 1) := by
            refine Nat.mul_le_mul_right _ ?_
            unfold FltMantissa.value
            omega
    · rw [if_neg (Nat.succ_ne_zero s)]
      rfl
  next set =>
    rw [top_and_eq_zero] at set
    refine ⟨0, Nat.zero_le _, by simp, ?_, rfl, by simp⟩
    exact FltMantissa.normalized_iff_high.mpr (not_lt.mp set)

/-- Normalising a non-zero number moves its highest bit to bit 63 and takes the
distance from the exponent. -/
theorem fltNrm_spec {e : FltArith} (nonzero : e.mantissa ≠ FltMantissa.zero) :
    ∃ s : Nat, s ≤ 63 ∧ (fltNrm e).mantissa.value = e.mantissa.value * 2 ^ s ∧
      (fltNrm e).mantissa.Normalized ∧ (fltNrm e).sign = e.sign ∧
      (fltNrm e).exp = if s = 0 then e.exp else toShort (e.exp - s) := by
  have someBit : e.mantissa.value ≠ 0 := mt FltMantissa.value_eq_zero.mp nonzero
  unfold FltMantissa.value at someBit
  rw [fltNrm, if_neg (mt FltMantissa.or_eq_zero.mp nonzero)]
  by_cases word : e.m1 = 0
  · have empty : e.mantissa.h32.toNat = 0 := congrArg UInt32.toNat word
    obtain ⟨s, bound, shifted, normal, sign, exponent⟩ :=
      nrmBits_spec (e := { e with mantissa := ⟨e.m2, 0⟩, exp := toShort (e.exp - 32) })
        (show 0 < e.mantissa.l32.toNat by omega)
    rw [if_pos word]
    refine ⟨s + 32, by omega, ?_, normal, sign, ?_⟩
    · refine shifted.trans ?_
      unfold FltMantissa.value
      rw [empty, pow_add]
      simp only [UInt32.reduceToNat]
      ring
    · refine exponent.trans ?_
      split
      next zero =>
        rw [zero]
        rfl
      next positive =>
        rw [sub_eq_add_neg, toShort_add]
        push_cast
        ring_nf
  · rw [if_neg word]
    have high : 0 < e.mantissa.h32.toNat := by
      refine Nat.pos_of_ne_zero fun empty => word ?_
      exact UInt32.toNat_inj.mp empty
    obtain ⟨s, bound, rest⟩ := nrmBits_spec high
    exact ⟨s, by omega, rest⟩

/-- An integer mantissa, that is one with exponent 63, normalizes to a number
whose exponent counts its bits. -/
theorem fltNrm_integer (nonzero : e.mantissa ≠ FltMantissa.zero) (integer : e.exp = 63) :
    (fltNrm e).mantissa.Normalized ∧ 0 ≤ (fltNrm e).exp ∧ (fltNrm e).exp ≤ 63 := by
  obtain ⟨s, bound, -, normal, -, exponent⟩ := fltNrm_spec nonzero
  refine ⟨normal, ?_⟩
  rw [exponent, integer]
  split
  next => decide
  next =>
    rw [toShort_of_range (by omega) (by omega)]
    omega

/-! ## The range check -/

/-- `flt_chk`: an exponent out of range turns the number into the overflow
value or into zero. -/
def fltChk (e : FltArith) (status : FltStatus) : FltArith × FltStatus :=
  let (e, status) := if e.exp ≥ extMax then
      ({ e with exp := extMax, mantissa := ⟨0x80000000, 0⟩ }, FltStatus.ovfl)
    else (e, status)
  if e.exp ≤ extMin then (zero, FltStatus.unfl) else (e, status)

theorem fltChk_of_range (status : FltStatus) (low : extMin < e.exp) (high : e.exp < extMax) :
    fltChk e status = (e, status) := by
  unfold fltChk
  rw [if_neg (by omega)]
  dsimp only
  rw [if_neg (by omega)]

theorem fltChk_of_high (status : FltStatus) (high : extMax ≤ e.exp) :
    fltChk e status = (⟨e.sign, extMax, ⟨0x80000000, 0⟩⟩, FltStatus.ovfl) := by
  unfold fltChk
  rw [if_pos high]
  rfl

theorem fltChk_of_low (status : FltStatus) (low : e.exp ≤ extMin) :
    fltChk e status = (zero, FltStatus.unfl) := by
  unfold fltChk
  have notHigh : ¬ e.exp ≥ extMax := by
    unfold extMin at low
    unfold extMax
    omega
  rw [if_neg notHigh]
  dsimp only
  rw [if_pos low]

/-- What an operation may deliver: a canonical number, or the overflow value
together with the report that it overflowed. -/
def Delivered (result : FltArith × FltStatus) : Prop :=
  result.1.Canonical ∨ (result.1.Overflowed ∧ result.2 = FltStatus.ovfl)

instance (result : FltArith × FltStatus) : Decidable (Delivered result) :=
  inferInstanceAs (Decidable (_ ∨ ((_ ∧ _) ∧ _)))

theorem delivered_zero (status : FltStatus) : Delivered (zero, status) :=
  Or.inl (Or.inl rfl)

theorem normalized_top : (⟨0x80000000, 0⟩ : FltMantissa).Normalized := by
  decide

theorem fltChk_delivered (status : FltStatus) (normal : e.mantissa.Normalized) :
    Delivered (fltChk e status) := by
  by_cases high : extMax ≤ e.exp
  · rw [fltChk_of_high status high]
    exact Or.inr ⟨⟨normalized_top, rfl⟩, rfl⟩
  · by_cases low : e.exp ≤ extMin
    · rw [fltChk_of_low status low]
      exact delivered_zero _
    · rw [fltChk_of_range status (not_le.mp low) (not_le.mp high)]
      exact Or.inl (Or.inr ⟨normal, not_le.mp low, not_le.mp high⟩)

theorem fltChk_zero (status : FltStatus) : fltChk zero status = (zero, status) :=
  fltChk_of_range status (by decide) (by decide)

theorem fltChk_fltNrm_delivered (e : FltArith) (status : FltStatus) :
    Delivered (fltChk (fltNrm e) status) := by
  by_cases empty : e.mantissa = FltMantissa.zero
  · rw [fltNrm_zero empty, fltChk_zero]
    exact delivered_zero status
  · obtain ⟨s, -, -, normal, -⟩ := fltNrm_spec empty
    exact fltChk_delivered status normal

end AckFormal.Flt.Number
