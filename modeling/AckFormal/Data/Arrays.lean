import Mathlib.Data.List.Nodup

/-!
# Arrays of pointers

`struct array` of the data module grows at its end and is searched from the
front.  Passes use it as a set: `array_appendu` appends only what is not there,
and tells whether it was.
-/

namespace AckFormal.Data.Arrays

variable {α : Type}

def insert (array : List α) (value : α) (before : Nat) : List α :=
  array.take before ++ value :: array.drop before

variable [DecidableEq α]

/-- `array_appendu`; the result is true if the value was there. -/
def appendu (array : List α) (value : α) : List α × Bool :=
  if value ∈ array then (array, true) else (array ++ [value], false)

/-- `array_remove`: the first such element is taken out. -/
def remove (array : List α) (value : α) : List α := array.erase value

def removeall (array src : List α) : List α := src.foldl remove array

/-- `array_appendallu`; the result is true if nothing was added. -/
def appendallu (array : List α) : List α → List α × Bool
  | [] => (array, true)
  | value :: src =>
    let added := appendu array value
    let rest := appendallu added.1 src
    (rest.1, added.2 && rest.2)

variable {array src : List α} {x : α}

theorem mem_appendu {value : α} : x ∈ (appendu array value).1 ↔ x ∈ array ∨ x = value := by
  unfold appendu
  split
  next present =>
    constructor
    · intro member
      exact Or.inl member
    · rintro (member | same)
      · exact member
      · rwa [same]
  next => rw [List.mem_append, List.mem_singleton]

section

variable (nodup : array.Nodup)
include nodup

theorem nodup_appendu (value : α) : (appendu array value).1.Nodup := by
  unfold appendu
  split
  next => exact nodup
  next absent => exact nodup.append (List.nodup_singleton value) (by simpa using absent)

theorem mem_remove {value : α} :
    x ∈ remove array value ↔ x ∈ array ∧ x ≠ value := by
  unfold remove
  rw [nodup.mem_erase_iff, and_comm]

theorem nodup_remove (value : α) : (remove array value).Nodup :=
  nodup.erase value

theorem nodup_removeall (src : List α) : (removeall array src).Nodup := by
  induction src generalizing array with
  | nil => exact nodup
  | cons value src ih => exact ih (nodup_remove nodup value)

theorem mem_removeall : x ∈ removeall array src ↔ x ∈ array ∧ x ∉ src := by
  induction src generalizing array with
  | nil => simp [removeall]
  | cons value src ih =>
    refine (ih (nodup_remove nodup value)).trans ?_
    rw [mem_remove nodup, List.mem_cons, not_or, and_assoc]

theorem nodup_appendallu (src : List α) : (appendallu array src).1.Nodup := by
  induction src generalizing array with
  | nil => exact nodup
  | cons value src ih => exact ih (nodup_appendu nodup value)

end

theorem mem_appendallu : x ∈ (appendallu array src).1 ↔ x ∈ array ∨ x ∈ src := by
  induction src generalizing array with
  | nil => simp [appendallu]
  | cons value src ih =>
    refine ih.trans ?_
    rw [mem_appendu, List.mem_cons, or_assoc]

theorem appendallu_unchanged : (appendallu array src).2 = true ↔ ∀ x ∈ src, x ∈ array := by
  induction src generalizing array with
  | nil => simp [appendallu]
  | cons value src ih =>
    rw [appendallu, List.forall_mem_cons]
    rw [Bool.and_eq_true, ih]
    unfold appendu
    split
    next present => simp [present]
    next absent => simp [absent]

theorem appendallu_eq (inside : ∀ x ∈ src, x ∈ array) : (appendallu array src).1 = array := by
  induction src with
  | nil => rfl
  | cons value src ih =>
    rw [List.forall_mem_cons] at inside
    have same : appendu array value = (array, true) := if_pos inside.1
    rw [appendallu, same]
    exact ih inside.2

end AckFormal.Data.Arrays
