import Mathlib.Algebra.Order.Field.Power
import Mathlib.Data.Rat.Floor

/-!
# Rounding to a binary floating point format

A format has a precision and a least exponent; its numbers are the multiples
`n * 2 ^ q` with `n` below two to the precision and `q` not below the least
exponent.  `NearestUp` is rounding to the nearest number of a set, to the larger
one of two that are equally near.
-/

namespace AckFormal.Lib.Rounding

/-- The non-negative numbers of a format without a largest exponent. -/
def Representable (precision : Nat) (least : Int) (x : ℚ) : Prop :=
  ∃ (n : Nat) (q : Int), n < 2 ^ precision ∧ least ≤ q ∧ x = n * (2 : ℚ) ^ q

/-- `r` is the element of `S` nearest to `v`; of two it is the larger one. -/
def NearestUp (S : ℚ → Prop) (v r : ℚ) : Prop :=
  S r ∧ ∀ s, S s → |r - v| < |s - v| ∨ (|r - v| = |s - v| ∧ s ≤ r)

variable {v : ℚ} {precision : Nat} {q : Int}

theorem NearestUp.unique {S : ℚ → Prop} {r r' : ℚ} (first : NearestUp S v r)
    (second : NearestUp S v r') : r = r' := by
  rcases first.2 r' second.1 with nearer | ⟨same, below⟩
  · rcases second.2 r first.1 with nearer' | ⟨same', -⟩
    · exact absurd nearer' (not_lt.mpr nearer.le)
    · exact absurd same' nearer.ne'
  · rcases second.2 r first.1 with nearer' | ⟨-, above⟩
    · exact absurd same nearer'.ne'
    · exact le_antisymm above below

def roundMultiple (v quantum : ℚ) : ℚ :=
  ⌊v / quantum + 1 / 2⌋ * quantum

theorem roundMultiple_nearest {quantum : ℚ} (positive : 0 < quantum) (k : Int) :
    |roundMultiple v quantum - v| < |k * quantum - v| ∨
      (|roundMultiple v quantum - v| = |k * quantum - v| ∧
        k * quantum ≤ roundMultiple v quantum) := by
  have low := Int.floor_le (v / quantum + 1 / 2)
  have high := Int.lt_floor_add_one (v / quantum + 1 / 2)
  unfold roundMultiple
  generalize ⌊v / quantum + 1 / 2⌋ = n at low high ⊢
  obtain ⟨x, rfl⟩ : ∃ x, v = x * quantum := ⟨v / quantum, by field_simp⟩
  rw [mul_div_cancel_right₀ _ positive.ne'] at low high
  have scale : ∀ a : ℚ, |a * quantum - x * quantum| = |a - x| * quantum := fun a => by
    rw [← sub_mul, abs_mul, abs_of_pos positive]
  rw [scale, scale]
  have near : |(n : ℚ) - x| ≤ 1 / 2 := abs_le.mpr ⟨by linarith, by linarith⟩
  rcases lt_trichotomy k n with below | same | above
  · have gap : (k : ℚ) + 1 ≤ n := by exact_mod_cast below
    have far : 1 / 2 ≤ |(k : ℚ) - x| := le_trans (by linarith) (neg_le_abs _)
    rcases (near.trans far).lt_or_eq with nearer | tie
    · exact Or.inl (mul_lt_mul_of_pos_right nearer positive)
    · refine Or.inr ⟨by rw [tie], mul_le_mul_of_nonneg_right ?_ positive.le⟩
      linarith
  · subst same
    exact Or.inr ⟨rfl, le_rfl⟩
  · have gap : (n : ℚ) + 1 ≤ k := by exact_mod_cast above
    have far : 1 / 2 < |(k : ℚ) - x| := lt_of_lt_of_le (by linarith) (le_abs_self _)
    exact Or.inl (mul_lt_mul_of_pos_right (lt_of_le_of_lt near far) positive)

/-- Rounding to the quantum of the binade gives the nearest number of the
format. -/
theorem roundMultiple_nearestUp {least : Int} (positive : 0 < precision) (nonneg : 0 ≤ v)
    (atLeast : least ≤ q) (below : v < 2 ^ (precision : Int) * (2 : ℚ) ^ q)
    (binade : q = least ∨ 2 ^ ((precision : Int) - 1) * (2 : ℚ) ^ q ≤ v) :
    NearestUp (Representable precision least) v (roundMultiple v (2 ^ q)) := by
  have quantum : (0 : ℚ) < 2 ^ q := by positivity
  have scaled : v / 2 ^ q < 2 ^ precision := by
    rw [div_lt_iff₀ quantum]
    exact_mod_cast below
  have floorNonneg : 0 ≤ ⌊v / (2 : ℚ) ^ q + 1 / 2⌋ := by
    apply Int.floor_nonneg.mpr
    positivity
  have floorBound : ⌊v / (2 : ℚ) ^ q + 1 / 2⌋ ≤ (2 : Int) ^ precision := by
    rw [← Int.lt_add_one_iff, Int.floor_lt]
    push_cast
    linarith
  refine ⟨?_, fun s representable => ?_⟩
  · obtain ⟨n, count⟩ := Int.eq_ofNat_of_zero_le floorNonneg
    unfold roundMultiple
    rw [count] at floorBound ⊢
    have natBound : n ≤ 2 ^ precision := by exact_mod_cast floorBound
    rcases natBound.lt_or_eq with small | full
    · exact ⟨n, q, small, atLeast, by push_cast; rfl⟩
    · refine ⟨2 ^ (precision - 1), q + 1, Nat.pow_lt_pow_right (by decide) (by omega),
        by omega, ?_⟩
      rw [full, zpow_add₀ (by norm_num)]
      have whole : (2 : ℚ) ^ precision = 2 ^ (precision - 1) * 2 := by
        rw [← pow_succ]
        congr 1
        omega
      push_cast
      rw [whole]
      ring
  · obtain ⟨n, q', small, least', rfl⟩ := representable
    by_cases finer : q' < q
    · -- a finer number lies below the binade, farther than its lower end
      have lower : 2 ^ ((precision : Int) - 1) * (2 : ℚ) ^ q ≤ v := by
        rcases binade with isLeast | lower
        · omega
        · exact lower
      have smaller : (n : ℚ) * 2 ^ q' < 2 ^ ((precision : Int) - 1) * (2 : ℚ) ^ q := by
        have nBound : (n : ℚ) < 2 ^ (precision : Int) := by exact_mod_cast small
        calc (n : ℚ) * 2 ^ q' < 2 ^ (precision : Int) * 2 ^ q' :=
              mul_lt_mul_of_pos_right nBound (by positivity)
          _ = 2 ^ ((precision : Int) + q') := (zpow_add₀ (by norm_num) _ _).symm
          _ ≤ 2 ^ ((precision : Int) - 1 + q) := zpow_le_zpow_right₀ (by norm_num) (by omega)
          _ = 2 ^ ((precision : Int) - 1) * (2 : ℚ) ^ q := zpow_add₀ (by norm_num) _ _
      have multiple : ((2 ^ (precision - 1) : Int) : ℚ) = 2 ^ ((precision : Int) - 1) := by
        rw [show (precision : Int) - 1 = ((precision - 1 : Nat) : Int) by omega, zpow_natCast]
        push_cast
        rfl
      have nearest : |roundMultiple v (2 ^ q) - v| ≤
          |((2 ^ (precision - 1) : Int) : ℚ) * 2 ^ q - v| := by
        rcases roundMultiple_nearest (v := v) quantum (2 ^ (precision - 1)) with nearer | ⟨same, -⟩
        · exact nearer.le
        · exact same.le
      rw [multiple, abs_of_nonpos (sub_nonpos.mpr lower)] at nearest
      refine Or.inl (lt_of_le_of_lt nearest ?_)
      rw [abs_of_neg (by linarith)]
      linarith
    · have shift : (n : ℚ) * 2 ^ q' = ((n * 2 ^ (q' - q).toNat : Int) : ℚ) * 2 ^ q := by
        push_cast
        rw [mul_assoc, ← zpow_natCast (2 : ℚ) (q' - q).toNat, ← zpow_add₀ (by norm_num)]
        congr 2
        omega
      rw [shift]
      exact roundMultiple_nearest quantum _

/-- The non-negative numbers with a limited number of significant bits and any
exponent. -/
def Significant (precision : Nat) (x : ℚ) : Prop :=
  ∃ (n : Nat) (q : Int), n < 2 ^ precision ∧ x = n * (2 : ℚ) ^ q

theorem Representable.significant {least : Int} {x : ℚ}
    (representable : Representable precision least x) : Significant precision x := by
  obtain ⟨n, q, small, -, same⟩ := representable
  exact ⟨n, q, small, same⟩

theorem roundMultiple_nearestUp_significant (positive : 0 < precision) (nonneg : 0 ≤ v)
    (below : v < 2 ^ (precision : Int) * (2 : ℚ) ^ q)
    (binade : 2 ^ ((precision : Int) - 1) * (2 : ℚ) ^ q ≤ v) :
    NearestUp (Significant precision) v (roundMultiple v (2 ^ q)) := by
  have nearest (least : Int) (atLeast : least ≤ q) :=
    roundMultiple_nearestUp positive nonneg atLeast below (Or.inr binade)
  refine ⟨(nearest q le_rfl).1.significant, fun s significant => ?_⟩
  obtain ⟨n, q', small, same⟩ := significant
  -- a format that reaches down to the exponents of both
  exact (nearest (min q q') (min_le_left q q')).2 s ⟨n, q', small, min_le_right q q', same⟩

def Truncated (S : ℚ → Prop) (v r : ℚ) : Prop :=
  S r ∧ r ≤ v ∧ ∀ s, S s → s ≤ v → s ≤ r

/-- Cutting off at the quantum of the binade truncates to the format. -/
theorem floor_truncated (positive : 0 < precision) (below : v < 2 ^ (precision : Int) * (2 : ℚ) ^ q)
    (binade : 2 ^ ((precision : Int) - 1) * (2 : ℚ) ^ q ≤ v) :
    Truncated (Significant precision) v (⌊v / 2 ^ q⌋ * (2 : ℚ) ^ q) := by
  have quantum : (0 : ℚ) < 2 ^ q := by positivity
  have nonneg : (0 : ℚ) ≤ v := le_trans (by positivity) binade
  have lower : (2 ^ (precision - 1) : Int) ≤ ⌊v / (2 : ℚ) ^ q⌋ := by
    rw [Int.le_floor, le_div_iff₀ quantum]
    refine le_trans (le_of_eq ?_) binade
    rw [show (precision : Int) - 1 = ((precision - 1 : Nat) : Int) by omega, zpow_natCast]
    push_cast
    rfl
  have upper : ⌊v / (2 : ℚ) ^ q⌋ < (2 ^ precision : Int) := by
    rw [Int.floor_lt, div_lt_iff₀ quantum]
    exact_mod_cast below
  refine ⟨?_, ?_, fun s significant inside => ?_⟩
  · obtain ⟨n, count⟩ := Int.eq_ofNat_of_zero_le (Int.floor_nonneg.mpr (by positivity : 0 ≤ v / 2 ^ q))
    rw [count] at upper ⊢
    exact ⟨n, q, by exact_mod_cast upper, by push_cast; rfl⟩
  · rw [← le_div_iff₀ quantum]
    exact Int.floor_le _
  · obtain ⟨n, q', small, rfl⟩ := significant
    by_cases finer : q' < q
    · -- a finer number lies below the binade
      have nBound : (n : ℚ) < 2 ^ (precision : Int) := by exact_mod_cast small
      have least : (2 : ℚ) ^ ((precision : Int) - 1) * 2 ^ q ≤ ⌊v / (2 : ℚ) ^ q⌋ * (2 : ℚ) ^ q := by
        refine mul_le_mul_of_nonneg_right ?_ quantum.le
        rw [show (precision : Int) - 1 = ((precision - 1 : Nat) : Int) by omega, zpow_natCast]
        exact_mod_cast lower
      calc (n : ℚ) * 2 ^ q' ≤ 2 ^ (precision : Int) * 2 ^ q' :=
            mul_le_mul_of_nonneg_right nBound.le (by positivity)
        _ = 2 ^ ((precision : Int) + q') := (zpow_add₀ (by norm_num) _ _).symm
        _ ≤ 2 ^ ((precision : Int) - 1 + q) := zpow_le_zpow_right₀ (by norm_num) (by omega)
        _ = 2 ^ ((precision : Int) - 1) * (2 : ℚ) ^ q := zpow_add₀ (by norm_num) _ _
        _ ≤ _ := least
    · have shift : (n : ℚ) * 2 ^ q' = ((n * 2 ^ (q' - q).toNat : Int) : ℚ) * 2 ^ q := by
        push_cast
        rw [mul_assoc, ← zpow_natCast (2 : ℚ) (q' - q).toNat, ← zpow_add₀ (by norm_num)]
        congr 2
        omega
      rw [shift] at inside ⊢
      refine mul_le_mul_of_nonneg_right ?_ quantum.le
      exact_mod_cast Int.le_floor.mpr ((le_div_iff₀ quantum).mpr inside)

/-- Rounding a dyadic number: the quotient of natural numbers, half way up. -/
theorem roundMultiple_dyadic (m k : Nat) (e : Int) (positive : 0 < k) :
    roundMultiple (m * (2 : ℚ) ^ e) (2 ^ (e + k)) =
      ((m + 2 ^ (k - 1)) / 2 ^ k : Nat) * (2 : ℚ) ^ (e + k) := by
  unfold roundMultiple
  have quotient : (m : ℚ) * 2 ^ e / 2 ^ (e + k) + 1 / 2 =
      ((m + 2 ^ (k - 1) : Nat) : ℚ) / ((2 ^ k : Nat) : ℚ) := by
    have half : (2 : ℚ) ^ k = 2 ^ (k - 1) * 2 := by
      rw [← pow_succ]
      congr 1
      omega
    rw [zpow_add₀ (by norm_num), zpow_natCast]
    push_cast
    rw [half]
    field_simp
  rw [quotient, Rat.floor_natCast_div_natCast]
  rfl

end AckFormal.Lib.Rounding
