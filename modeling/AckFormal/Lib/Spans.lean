import Mathlib.Algebra.BigOperators.Intervals

/-!
# Consecutive spans

The numbers from zero on are cut into consecutive spans of given sizes. A number then has
a span it lies in and a place there, and a loop that takes off one size after the other
finds them.
-/

namespace AckFormal.Lib.Spans

variable (size : Nat → Nat)

def before (count : Nat) : Nat := ∑ k ∈ Finset.range count, size k

/-- The number `n` lies in span `i`, `r` places after the start of it. -/
structure Lies (n i r : Nat) : Prop where
  sum : before size i + r = n
  inside : r < size i

@[simp]
theorem before_zero : before size 0 = 0 := rfl

theorem before_succ (count : Nat) : before size (count + 1) = before size count + size count :=
  Finset.sum_range_succ size count

theorem before_mono {few many : Nat} (fewer : few ≤ many) : before size few ≤ before size many := by
  induction many, fewer using Nat.le_induction with
  | base => exact Nat.le_refl _
  | succ many _ ih =>
    rw [before_succ]
    exact Nat.le_trans ih (Nat.le_add_right _ _)

theorem le_before (positive : ∀ i, 0 < size i) (count : Nat) : count ≤ before size count := by
  induction count with
  | zero => exact Nat.le_refl 0
  | succ count ih =>
    rw [before_succ]
    exact Nat.add_le_add ih (positive count)

variable {size}

theorem Lies.lt_before {n i r : Nat} (lies : Lies size n i r) : n < before size (i + 1) := by
  rw [before_succ, ← lies.sum]
  exact Nat.add_lt_add_left lies.inside _

theorem Lies.span_lt {n i r count : Nat} (lies : Lies size n i r) (covered : n < before size count) :
    i < count := by
  by_contra beyond
  have covers := before_mono size (Nat.le_of_not_lt beyond)
  have start := lies.sum
  omega

theorem exists_lies {n count : Nat} (covered : n < before size count) :
    ∃ i r, i < count ∧ Lies size n i r := by
  induction count with
  | zero => exact absurd covered (Nat.not_lt_zero n)
  | succ count ih =>
    by_cases earlier : n < before size count
    · obtain ⟨i, r, below, lies⟩ := ih earlier
      exact ⟨i, r, Nat.lt_succ_of_lt below, lies⟩
    · rw [before_succ] at covered
      exact ⟨count, n - before size count, Nat.lt_succ_self count, by omega, by omega⟩

theorem loop_eq {α : Type*} (loop : Nat → Nat → α) {i : Nat}
    (turn : ∀ left k, k < i → size k ≤ left → loop left k = loop (left - size k) (k + 1)) (r : Nat) :
    loop (before size i + r) 0 = loop r i := by
  induction i generalizing r with
  | zero => rw [before_zero, Nat.zero_add]
  | succ i ih =>
    have earlier := ih fun left k below => turn left k (Nat.lt_succ_of_lt below)
    rw [before_succ, Nat.add_assoc, earlier (size i + r),
      turn _ i (Nat.lt_succ_self i) (Nat.le_add_right _ _), Nat.add_sub_cancel_left]

end AckFormal.Lib.Spans
