import Mathlib.Data.List.Basic

/-!
# Linked lists in a memory

A memory gives every cell a successor or none. A list of cells is linked in it when each
cell is followed by the next one.
-/

namespace AckFormal.Lib.Links

variable {α : Type*}

/-- Each cell of the list is followed by the next one, and the last one by `after`. -/
def Follows (next : α → Option α) : List α → Option α → Prop
  | [], _ => True
  | cell :: rest, after => next cell = rest.head?.or after ∧ Follows next rest after

def walk (next : α → Option α) : Nat → Option α → List α
  | 0, _ => []
  | _ + 1, none => []
  | count + 1, some cell => cell :: walk next count (next cell)

variable {next : α → Option α} {cells : List α} {after : Option α}

theorem follows_congr {next' : α → Option α} (same : ∀ cell ∈ cells, next' cell = next cell)
    (linked : Follows next cells after) : Follows next' cells after := by
  induction cells with
  | nil => trivial
  | cons cell rest ih =>
    refine ⟨(same cell List.mem_cons_self).trans linked.1, ih ?_ linked.2⟩
    exact fun other member => same other (List.mem_cons_of_mem cell member)

theorem follows_append {first second : List α} :
    Follows next (first ++ second) after ↔
      Follows next first (second.head?.or after) ∧ Follows next second after := by
  induction first with
  | nil => simp [Follows]
  | cons cell rest ih =>
    cases rest with
    | nil => simp [Follows]
    | cons other rest =>
      simp only [List.cons_append, Follows, List.head?_cons, Option.some_or] at ih ⊢
      rw [ih]
      simp only [and_assoc]

theorem follows_unique {cells' : List α} (linked : Follows next cells none)
    (linked' : Follows next cells' none) (same : cells.head? = cells'.head?) : cells = cells' := by
  induction cells generalizing cells' with
  | nil =>
    cases cells' with
    | nil => rfl
    | cons other rest => cases same
  | cons cell rest ih =>
    cases cells' with
    | nil => cases same
    | cons other rest' =>
      cases same
      have heads : rest.head? = rest'.head? := by
        have first := linked.1
        have second := linked'.1
        rw [Option.or_none] at first second
        exact first.symm.trans second
      rw [ih linked.2 linked'.2 heads]

theorem follows_nodup (linked : Follows next cells none) : cells.Nodup := by
  induction cells with
  | nil => exact List.nodup_nil
  | cons cell rest ih =>
    refine List.nodup_cons.mpr ⟨fun again => ?_, ih linked.2⟩
    obtain ⟨front, back, split⟩ := List.append_of_mem again
    have later : Follows next (cell :: back) none := by
      have whole := linked.2
      rw [split] at whole
      exact (follows_append.mp whole).2
    have same : rest = back := (List.cons.inj (follows_unique linked later rfl)).2
    have length := congrArg List.length split
    rw [same, List.length_append, List.length_cons] at length
    omega

theorem walk_eq (linked : Follows next cells none) :
    walk next cells.length cells.head? = cells := by
  induction cells with
  | nil => rfl
  | cons cell rest ih =>
    have follows : next cell = rest.head? := by
      rw [linked.1]
      exact Option.or_none
    simp only [List.length_cons, List.head?_cons, walk, follows, ih linked.2]

variable [DecidableEq α]

theorem follows_update {value : Option α} {cell : α} (apart : cell ∉ cells)
    (linked : Follows next cells after) :
    Follows (Function.update next cell value) cells after := by
  refine follows_congr (fun other member => ?_) linked
  refine Function.update_of_ne ?_ _ _
  rintro rfl
  exact apart member

theorem follows_redirect {last : α} {value : Option α} (apart : last ∉ cells)
    (linked : Follows next (cells ++ [last]) after) :
    Follows (Function.update next last value) (cells ++ [last]) value := by
  obtain ⟨before, -⟩ := follows_append.mp linked
  refine follows_append.mpr ⟨follows_update apart ?_, ?_⟩
  · simpa using before
  · simp [Follows]

end AckFormal.Lib.Links
