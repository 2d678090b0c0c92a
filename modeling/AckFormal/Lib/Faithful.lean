import AckFormal.Lib.Rounding

/-!
# Faithful rounding

A rounding is faithful when it moves a number across no number of the format:
a number of the format is kept, any other one goes to a neighbour.
-/

namespace AckFormal.Lib.Faithful

open Rounding

section Order

variable {α : Type*} [LinearOrder α] {S : α → Prop} {v t : α}

/-- `t` lies on the same side of every element of `S` as `v`. -/
def Respects (S : α → Prop) (v t : α) : Prop :=
  ∀ s, S s → (s ≤ v → s ≤ t) ∧ (v ≤ s → t ≤ s)

/-- `t` is the greatest element of `S` up to `v` or the least one from `v` on. -/
def Adjacent (S : α → Prop) (v t : α) : Prop :=
  S t ∧ ((t ≤ v ∧ ∀ s, S s → s ≤ v → s ≤ t) ∨ (v ≤ t ∧ ∀ s, S s → v ≤ s → t ≤ s))

namespace Respects

theorem refl (S : α → Prop) (v : α) : Respects S v v :=
  fun _ _ => ⟨id, id⟩

theorem mono {T : α → Prop} (respects : Respects S v t) (fewer : ∀ s, T s → S s) :
    Respects T v t :=
  fun s member => respects s (fewer s member)

theorem eq_of_mem (respects : Respects S v t) (member : S v) : t = v :=
  le_antisymm ((respects v member).2 le_rfl) ((respects v member).1 le_rfl)

theorem adjacent (respects : Respects S v t) (member : S t) : Adjacent S v t := by
  refine ⟨member, ?_⟩
  rcases le_total t v with below | above
  · exact Or.inl ⟨below, fun s inside => (respects s inside).1⟩
  · exact Or.inr ⟨above, fun s inside => (respects s inside).2⟩

end Respects

end Order

variable {v t : ℚ} {precision : Nat} {least u : Int}

theorem Respects.neg {S : ℚ → Prop} (symmetric : ∀ s, S s → S (-s)) (respects : Respects S v t) :
    Respects S (-v) (-t) := by
  intro s member
  obtain ⟨below, above⟩ := respects (-s) (symmetric s member)
  refine ⟨fun lower => ?_, fun upper => ?_⟩
  · linarith [above (by linarith)]
  · linarith [below (by linarith)]

/-! ## Binary formats -/

/-- The numbers of a format without a largest exponent, of both signs. -/
def Signed (precision : Nat) (least : Int) (x : ℚ) : Prop :=
  Representable precision least |x|

theorem Signed.neg (x : ℚ) (member : Signed precision least x) : Signed precision least (-x) := by
  unfold Signed
  rwa [abs_neg]

def Multiple (u : Int) (x : ℚ) : Prop :=
  ∃ k : Int, x = k * (2 : ℚ) ^ u

namespace Multiple

variable {u : Int} {x y : ℚ}

theorem neg (multiple : Multiple u x) : Multiple u (-x) := by
  obtain ⟨k, rfl⟩ := multiple
  exact ⟨-k, by push_cast; ring⟩

theorem of_abs (multiple : Multiple u |x|) : Multiple u x := by
  rcases abs_choice x with same | opposite
  · rwa [same] at multiple
  · rw [opposite] at multiple
    simpa using multiple.neg

theorem gap (left : Multiple u x) (right : Multiple u y) (less : x < y) :
    x + (2 : ℚ) ^ u ≤ y := by
  obtain ⟨k, rfl⟩ := left
  obtain ⟨l, rfl⟩ := right
  have unit : (0 : ℚ) < 2 ^ u := by positivity
  have order : (k : ℚ) < l := lt_of_mul_lt_mul_right less unit.le
  have next : (k : ℚ) + 1 ≤ l := by exact_mod_cast order
  calc (k : ℚ) * 2 ^ u + 2 ^ u = (k + 1) * 2 ^ u := by ring
    _ ≤ l * 2 ^ u := mul_le_mul_of_nonneg_right next unit.le

theorem of_finer {q : Int} (finer : u ≤ q) (n : Int) : Multiple u (n * (2 : ℚ) ^ q) := by
  refine ⟨n * 2 ^ (q - u).toNat, ?_⟩
  push_cast
  rw [mul_assoc, ← zpow_natCast (2 : ℚ) (q - u).toNat, ← zpow_add₀ (by norm_num)]
  congr 2
  omega

end Multiple

theorem Signed.multiple {x : ℚ} (member : Signed precision least x) : Multiple least x := by
  obtain ⟨n, q, -, atLeast, value⟩ := member
  refine Multiple.of_abs ?_
  rw [value]
  exact_mod_cast Multiple.of_finer atLeast (n : Int)

/-- From the binade of `2 ^ u` on, the numbers of the format are multiples of
`2 ^ u`. -/
theorem Signed.multiple_of_large {x : ℚ} (member : Signed precision least x)
    (large : 2 ^ ((precision : Int) - 1) * (2 : ℚ) ^ u ≤ |x|) : Multiple u x := by
  obtain ⟨n, q, small, -, value⟩ := member
  refine Multiple.of_abs ?_
  rw [value] at large ⊢
  have finer : u ≤ q := by
    by_contra coarse
    have bound : (n : ℚ) < 2 ^ (precision : Int) := by exact_mod_cast small
    have below : (n : ℚ) * 2 ^ q < 2 ^ ((precision : Int) - 1) * (2 : ℚ) ^ u :=
      calc (n : ℚ) * 2 ^ q < 2 ^ (precision : Int) * 2 ^ q :=
            mul_lt_mul_of_pos_right bound (by positivity)
        _ = 2 ^ ((precision : Int) + q) := (zpow_add₀ (by norm_num) _ _).symm
        _ ≤ 2 ^ ((precision : Int) - 1 + u) := zpow_le_zpow_right₀ (by norm_num) (by omega)
        _ = 2 ^ ((precision : Int) - 1) * (2 : ℚ) ^ u := zpow_add₀ (by norm_num) _ _
    exact absurd large (not_le.mpr below)
  exact_mod_cast Multiple.of_finer finer (n : Int)

theorem respects_of_grid {S : ℚ → Prop} (grid : ∀ s, S s → Multiple u s) (onGrid : Multiple u t)
    (near : |t - v| < 2 ^ u) : Respects S v t := by
  obtain ⟨low, high⟩ := abs_lt.mp near
  intro s member
  refine ⟨fun below => ?_, fun above => ?_⟩
  · by_contra past
    linarith [onGrid.gap (grid s member) (not_le.mp past)]
  · by_contra past
    linarith [(grid s member).gap onGrid (not_le.mp past)]

/-- In the binade of `2 ^ u` and above, a multiple of `2 ^ u` that is nearer than
`2 ^ u` is faithful. -/
theorem respects_of_near (positive : 0 < precision) (onGrid : Multiple u t) (near : |t - v| < 2 ^ u)
    (large : 2 ^ ((precision : Int) - 1) * (2 : ℚ) ^ u ≤ v) :
    Respects (Signed precision least) v t := by
  obtain ⟨low, high⟩ := abs_lt.mp near
  have start : Multiple u (2 ^ ((precision : Int) - 1) * (2 : ℚ) ^ u) := by
    refine ⟨2 ^ (precision - 1), ?_⟩
    rw [show (precision : Int) - 1 = ((precision - 1 : Nat) : Int) by omega, zpow_natCast]
    push_cast
    rfl
  intro s member
  refine ⟨fun below => ?_, fun above => ?_⟩
  · by_contra past
    rw [not_le] at past
    rcases le_or_gt (2 ^ ((precision : Int) - 1) * (2 : ℚ) ^ u) s with inside | under
    · have multiple := member.multiple_of_large (inside.trans (le_abs_self s))
      linarith [onGrid.gap multiple past]
    · -- below the binade the grid is finer, but `t` would lie below it as well
      linarith [onGrid.gap start (past.trans under)]
  · by_contra past
    have multiple := member.multiple_of_large ((large.trans above).trans (le_abs_self s))
    linarith [multiple.gap onGrid (not_le.mp past)]

/-- A multiple of the step that is at most half a step away is the nearest
number of the format. -/
theorem nearest_of_half (positive : 0 < precision) (onGrid : Multiple u t)
    (near : |t - v| ≤ 2 ^ u / 2) (large : u = least ∨ 2 ^ ((precision : Int) - 1) * (2 : ℚ) ^ u ≤ v)
    {s : ℚ} (member : Signed precision least s) : |t - v| ≤ |s - v| := by
  -- other multiples are half a step away at least
  have grid {a : ℚ} (multiple : Multiple u a) : |t - v| ≤ |a - v| := by
    obtain ⟨low, high⟩ := abs_le.mp near
    rcases lt_trichotomy a t with below | same | above
    · have gap := multiple.gap onGrid below
      refine near.trans (le_trans ?_ (neg_le_abs _))
      linarith
    · rw [same]
    · have gap := onGrid.gap multiple above
      refine near.trans (le_trans ?_ (le_abs_self _))
      linarith
  rcases large with coarsest | large
  · rw [coarsest] at grid
    exact grid member.multiple
  · have start : Multiple u (2 ^ ((precision : Int) - 1) * (2 : ℚ) ^ u) := by
      refine ⟨2 ^ (precision - 1), ?_⟩
      rw [show (precision : Int) - 1 = ((precision - 1 : Nat) : Int) by omega, zpow_natCast]
      push_cast
      rfl
    rcases le_or_gt (2 ^ ((precision : Int) - 1) * (2 : ℚ) ^ u) s with inside | under
    · exact grid (member.multiple_of_large (inside.trans (le_abs_self s)))
    · -- below the binade its first number is nearer than `s`
      refine (grid start).trans ?_
      rw [abs_sub_comm, abs_of_nonneg (sub_nonneg.mpr large), abs_sub_comm s]
      exact le_trans (by linarith) (le_abs_self _)

end AckFormal.Lib.Faithful
