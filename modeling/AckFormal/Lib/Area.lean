import Mathlib.Data.List.Basic

/-!
# Arrays that are filled from the front

A C program that writes through a moving pointer fills an array from its first
element on.  The array has a size, the elements written so far fit in it, and a
write behind the last element has no result.
-/

namespace AckFormal.Lib

/-- An array of `size` elements of which the first ones have been written. -/
structure Area (α : Type) where
  size : Nat
  text : List α
  fits : text.length ≤ size

namespace Area

variable {α : Type}

def empty (size : Nat) : Area α := ⟨size, [], Nat.zero_le size⟩

def store (a : Area α) (x : α) : Option (Area α) :=
  if room : a.text.length < a.size then
    some ⟨a.size, a.text ++ [x], by rw [List.length_append]; exact room⟩
  else none

def grow (a : Area α) (more : Nat) : Area α :=
  ⟨a.size + more, a.text, Nat.le_add_right_of_le a.fits⟩

def storeAll (a : Area α) (xs : List α) : Option (Area α) := xs.foldlM store a

variable {a b : Area α}

theorem ext (size : a.size = b.size) (text : a.text = b.text) : a = b := by
  cases a
  cases b
  simp_all

theorem store_some {x : α} (stored : a.store x = some b) :
    b.size = a.size ∧ b.text = a.text ++ [x] := by
  unfold store at stored
  split at stored
  · cases stored
    exact ⟨rfl, rfl⟩
  · cases stored

theorem store_isSome {a : Area α} {x : α} :
    (a.store x).isSome = true ↔ a.text.length < a.size := by
  unfold store
  split
  · simpa using ‹_›
  · simpa using Nat.le_of_not_lt ‹_›

@[simp] theorem storeAll_nil (a : Area α) : a.storeAll [] = some a := rfl

theorem storeAll_cons (a : Area α) (x : α) (xs : List α) :
    a.storeAll (x :: xs) = (a.store x).bind fun b => b.storeAll xs := rfl

theorem storeAll_some {xs : List α} (stored : a.storeAll xs = some b) :
    b.size = a.size ∧ b.text = a.text ++ xs := by
  induction xs generalizing a with
  | nil =>
    cases stored
    simp
  | cons x xs ih =>
    rw [storeAll_cons, Option.bind_eq_some_iff] at stored
    obtain ⟨c, first, rest⟩ := stored
    obtain ⟨sizeFirst, textFirst⟩ := store_some first
    obtain ⟨sizeRest, textRest⟩ := ih rest
    exact ⟨sizeRest.trans sizeFirst, by simp [textRest, textFirst]⟩

/-- Storing succeeds exactly when there is room for all elements. -/
theorem storeAll_isSome {a : Area α} {xs : List α} :
    (a.storeAll xs).isSome = true ↔ a.text.length + xs.length ≤ a.size := by
  induction xs generalizing a with
  | nil => simpa using a.fits
  | cons x xs ih =>
    rw [storeAll_cons, List.length_cons]
    cases first : a.store x with
    | none =>
      have full := mt store_isSome.mpr (by simp [first] : ¬(a.store x).isSome = true)
      simp only [Option.bind_none, Option.isSome_none, Bool.false_eq_true, false_iff]
      omega
    | some b =>
      obtain ⟨size, text⟩ := store_some first
      simp only [Option.bind_some, ih, text, List.length_append, List.length_singleton]
      omega

end Area

end AckFormal.Lib
