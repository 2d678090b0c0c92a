import Mathlib.Data.List.Basic

/-!
# Lists in memory

A memory is a function on addresses.  `put` writes a list from an address on, `slice`
reads one back, and `Holds` says that a list is there.
-/

namespace AckFormal.Lib

variable {α : Type*} {mem mem' : Nat → α} {a b : Nat} {xs ys : List α}

def put (mem : Nat → α) (a : Nat) (xs : List α) : Nat → α :=
  fun i => if a ≤ i then (xs[i - a]?).getD (mem i) else mem i

def slice (mem : Nat → α) (a n : Nat) : List α :=
  (List.range n).map fun i => mem (a + i)

def Holds (mem : Nat → α) (a : Nat) (xs : List α) : Prop :=
  slice mem a xs.length = xs

@[simp] theorem put_nil (mem : Nat → α) (a : Nat) : put mem a [] = mem := by
  funext i
  simp [put]

@[simp] theorem slice_length (mem : Nat → α) (a n : Nat) : (slice mem a n).length = n := by
  simp [slice]

@[simp] theorem slice_zero (mem : Nat → α) (a : Nat) : slice mem a 0 = [] := rfl

theorem slice_add (mem : Nat → α) (a m n : Nat) :
    slice mem a (m + n) = slice mem a m ++ slice mem (a + m) n := by
  simp only [slice, List.range_add, List.map_append, List.map_map]
  congr 1
  apply List.map_congr_left
  intro i _
  simp only [Function.comp_apply, Nat.add_assoc]

theorem slice_congr (n : Nat) (same : ∀ i, a ≤ i → i < a + n → mem i = mem' i) :
    slice mem a n = slice mem' a n := by
  apply List.map_congr_left
  intro i bound
  rw [List.mem_range] at bound
  exact same (a + i) (Nat.le_add_right _ _) (by omega)

theorem slice_getElem? (mem : Nat → α) (a n i : Nat) (bound : i < n) :
    (slice mem a n)[i]? = some (mem (a + i)) := by
  rw [slice, List.getElem?_map, List.getElem?_range bound]
  rfl

theorem put_outside {i : Nat} (outside : i < a ∨ a + xs.length ≤ i) : put mem a xs i = mem i := by
  simp only [put]
  split
  · rw [List.getElem?_eq_none (by omega), Option.getD_none]
  · rfl

theorem put_inside {i : Nat} (bound : i < xs.length) : put mem a xs (a + i) = xs[i] := by
  simp only [put, Nat.le_add_right, if_true, Nat.add_sub_cancel_left,
    List.getElem?_eq_getElem bound, Option.getD_some]

theorem put_holds (mem : Nat → α) (a : Nat) (xs : List α) : Holds (put mem a xs) a xs := by
  apply List.ext_getElem
  · simp
  · intro i left right
    simp only [slice, List.getElem_map, List.getElem_range]
    exact put_inside right

theorem put_append (mem : Nat → α) (a : Nat) (xs ys : List α) :
    put (put mem a xs) (a + xs.length) ys = put mem a (xs ++ ys) := by
  funext i
  simp only [put]
  by_cases low : a ≤ i
  · by_cases high : a + xs.length ≤ i
    · have past : xs[i - a]? = none := List.getElem?_eq_none (by omega)
      rw [if_pos high, if_pos low, if_pos low, List.getElem?_append_right (by omega), past,
        Option.getD_none, Nat.sub_sub]
    · rw [if_neg high, if_pos low, if_pos low, List.getElem?_append_left (by omega)]
  · rw [if_neg (by omega), if_neg low, if_neg low]

theorem Holds.nil (mem : Nat → α) (a : Nat) : Holds mem a [] := rfl

theorem Holds.congr (holds : Holds mem a xs)
    (same : ∀ i, a ≤ i → i < a + xs.length → mem' i = mem i) : Holds mem' a xs := by
  unfold Holds at holds ⊢
  rw [slice_congr _ same]
  exact holds

theorem Holds.append (left : Holds mem a xs) (right : Holds mem (a + xs.length) ys) :
    Holds mem a (xs ++ ys) := by
  unfold Holds at left right ⊢
  rw [List.length_append, slice_add, left, right]

theorem Holds.left (holds : Holds mem a (xs ++ ys)) : Holds mem a xs := by
  unfold Holds at holds ⊢
  rw [List.length_append, slice_add] at holds
  exact List.append_inj_left holds (slice_length _ _ _)

theorem Holds.right (holds : Holds mem a (xs ++ ys)) : Holds mem (a + xs.length) ys := by
  unfold Holds at holds ⊢
  rw [List.length_append, slice_add] at holds
  exact List.append_inj_right holds (slice_length _ _ _)

theorem Holds.put_after (holds : Holds mem a xs) (ys : List α) :
    Holds (put mem (a + xs.length) ys) a (xs ++ ys) := by
  apply Holds.append
  · apply holds.congr
    intro i _ bound
    exact put_outside (Or.inl bound)
  · exact put_holds mem _ ys

end AckFormal.Lib
