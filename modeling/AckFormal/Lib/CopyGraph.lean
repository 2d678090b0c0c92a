import Mathlib.Dynamics.PeriodicPts.Lemmas
import Mathlib.Order.CompletePartialOrder

/-!
# Graphs of copies

A list of copies from sources to destinations.  Where no destination is written
twice every place has at most one source; following the sources is a partial
function, and its cycles are the cycles of the graph.  When every destination is
a source as well, the list is a permutation.
-/

namespace AckFormal.Lib.CopyGraph

open Option (bind_some)

variable {α : Type}

/-! ## Partial functions -/

def steps (f : α → Option α) : Nat → α → Option α
  | 0, x => some x
  | count + 1, x => (f x).bind (steps f count)

theorem steps_add (f : α → Option α) (first second : Nat) (x : α) :
    steps f (first + second) x = (steps f first x).bind (steps f second) := by
  induction first generalizing x with
  | zero => rw [Nat.zero_add, steps, bind_some]
  | succ first ih =>
    rw [Nat.succ_add, steps, steps]
    cases f x with
    | none => rfl
    | some y => exact ih y

theorem steps_one (f : α → Option α) (x : α) : steps f 1 x = f x := by
  rw [steps]
  cases f x <;> rfl

variable {f : α → Option α} {copies : List (α × α)} {src dest : α}

theorem steps_succ_some {count : Nat} {x z : α} (reached : steps f (count + 1) x = some z) :
    ∃ y, steps f count x = some y ∧ f y = some z := by
  rw [steps_add, Option.bind_eq_some_iff] at reached
  obtain ⟨y, before, last⟩ := reached
  exact ⟨y, before, by rwa [steps_one] at last⟩

def ShortCycles (f : α → Option α) : Prop :=
  ∀ x count, steps f (count + 1) x = some x → steps f 2 x = some x

/-- A set that `f` maps onto itself, with all its members on longer cycles. -/
structure LongCycles (f : α → Option α) (members : α → Prop) : Prop where
  closed : ∀ x, members x → ∃ y, f x = some y ∧ members y
  covered : ∀ x, members x → ∃ y, f y = some x ∧ members y
  long : ∀ x, members x → steps f 2 x ≠ some x

/-- If not all cycles are short, some are long. -/
theorem exists_longCycles (notShort : ¬ ShortCycles f) :
    ∃ members, LongCycles f members ∧ ∃ x, members x := by
  unfold ShortCycles at notShort
  push Not at notShort
  obtain ⟨x, count, returns, differs⟩ := notShort
  have turns (rounds : Nat) : steps f (rounds * (count + 1)) x = some x := by
    induction rounds with
    | zero => rw [Nat.zero_mul, steps]
    | succ rounds ih => rw [Nat.succ_mul, steps_add, ih, bind_some, returns]
  -- from every member some number of further steps leads back
  have back (first : Nat) : ∃ rest, first + rest = first * (count + 1) := by
    refine ⟨first * count, ?_⟩
    rw [Nat.mul_succ, Nat.add_comm]
  refine ⟨fun y => ∃ first, steps f first x = some y, ⟨?_, ?_, ?_⟩, x, 0, rfl⟩
  · rintro y ⟨first, reached⟩
    obtain ⟨rest, whole⟩ := back (first + 1)
    have returned := turns (first + 1)
    rw [← whole, steps_add, steps_add, reached, bind_some] at returned
    rw [steps_one] at returned
    cases next : f y with
    | none =>
      rw [next] at returned
      cases returned
    | some z =>
      refine ⟨z, rfl, first + 1, ?_⟩
      rw [steps_add, reached, bind_some, steps_one, next]
  · rintro y ⟨first, reached⟩
    have later : steps f (count + first + 1) x = some y := by
      rw [Nat.add_right_comm, steps_add, returns, bind_some, reached]
    obtain ⟨z, before, last⟩ := steps_succ_some later
    exact ⟨z, last, count + first, before⟩
  · rintro y ⟨first, reached⟩ returned
    obtain ⟨rest, whole⟩ := back first
    have home : steps f rest y = some x := by
      have round := turns first
      rwa [← whole, steps_add, reached, bind_some] at round
    apply differs
    calc steps f 2 x = (steps f rest y).bind (steps f 2) := by rw [home, bind_some]
      _ = steps f (rest + 2) y := (steps_add f rest 2 y).symm
      _ = steps f (2 + rest) y := by rw [Nat.add_comm]
      _ = (steps f 2 y).bind (steps f rest) := steps_add f 2 rest y
      _ = some x := by rw [returned, bind_some, home]

/-! ## Lists of copies -/

def Blocked (copies : List (α × α)) : Prop :=
  ∀ node ∈ copies, ∃ other, (node.2, other) ∈ copies

theorem Blocked.perm (blocked : Blocked copies) (unique : (copies.map Prod.snd).Nodup) :
    List.Perm (copies.map Prod.snd) (copies.map Prod.fst) := by
  refine List.Subperm.perm_of_length_le (List.subperm_of_subset unique ?_) (by simp)
  intro dest member
  obtain ⟨node, inside, same⟩ := List.mem_map.mp member
  obtain ⟨other, next⟩ := blocked node inside
  rw [← same]
  exact List.mem_map.mpr ⟨_, next, rfl⟩

theorem Blocked.unique_source (blocked : Blocked copies) (unique : (copies.map Prod.snd).Nodup)
    {first second : α} (left : (src, first) ∈ copies) (right : (src, second) ∈ copies) :
    first = second := by
  have sources := (blocked.perm unique).nodup_iff.mp unique
  exact congrArg Prod.snd (List.inj_on_of_nodup_map sources left right rfl)

theorem unique_dest (unique : (copies.map Prod.snd).Nodup) {first second : α}
    (left : (first, dest) ∈ copies) (right : (second, dest) ∈ copies) : first = second :=
  congrArg Prod.fst (List.inj_on_of_nodup_map unique left right rfl)

theorem Blocked.exists_copy_to (blocked : Blocked copies) (unique : (copies.map Prod.snd).Nodup)
    (copy : (src, dest) ∈ copies) : ∃ before, (before, src) ∈ copies := by
  have member : src ∈ copies.map Prod.fst := List.mem_map.mpr ⟨_, copy, rfl⟩
  obtain ⟨node, inside, same⟩ := List.mem_map.mp ((blocked.perm unique).mem_iff.mpr member)
  exact ⟨node.1, by rwa [← same]⟩

variable (blocked : Blocked copies) (unique : (copies.map Prod.snd).Nodup)
  (followed : ∀ src dest, (src, dest) ∈ copies → f dest = some src ∨ src = dest)
include blocked unique followed

/-- In a blocked list the destination of a copy lies on a cycle of copies; if
these are steps of `f`, unless they lead nowhere, it is a cycle of `f`. -/
theorem Blocked.returns (copy : (src, dest) ∈ copies) (moves : src ≠ dest) :
    ∃ count, steps f (count + 1) dest = some dest := by
  let places := { place : α // place ∈ copies.map Prod.snd }
  have finite : Finite places := (copies.map Prod.snd).finite_toSet.to_subtype
  have source (place : places) : ∃ before : places, (before.1, place.1) ∈ copies := by
    obtain ⟨node, inside, same⟩ := List.mem_map.mp place.2
    obtain ⟨before, earlier⟩ := blocked.exists_copy_to unique inside
    exact ⟨⟨node.1, List.mem_map.mpr ⟨_, earlier, rfl⟩⟩, by rwa [← same]⟩
  choose pred copied using source
  have injective : Function.Injective pred := by
    intro first second same
    refine Subtype.ext (blocked.unique_source unique (copied first) ?_)
    rw [same]
    exact copied second
  let start : places := ⟨dest, List.mem_map.mpr ⟨_, copy, rfl⟩⟩
  obtain ⟨count, positive, periodic⟩ := injective.mem_periodicPts start
  -- no member of the cycle is copied to itself, or its first would be too
  have moved (k : Nat) : pred (pred^[k] start) ≠ pred^[k] start := by
    intro fixed
    rw [← Function.iterate_succ_apply' pred, Function.iterate_succ_apply] at fixed
    have still : pred start = start := injective.iterate k fixed
    apply moves
    rw [unique_dest unique copy (copied start), still]
  have follows (k : Nat) : steps f k dest = some (pred^[k] start).1 := by
    induction k with
    | zero => rfl
    | succ k ih =>
      rw [steps_add, ih, bind_some, steps_one, Function.iterate_succ_apply']
      rcases followed _ _ (copied (pred^[k] start)) with step | same
      · exact step
      · exact absurd (Subtype.ext same) (moved k)
  obtain ⟨before, rfl⟩ : ∃ before, count = before + 1 := ⟨count - 1, by omega⟩
  exact ⟨before, by rw [follows, periodic.eq]⟩

/-- Where the cycles are short, a blocked copy is answered by the opposite
one. -/
theorem Blocked.opposite
    (short : ShortCycles f) (copy : (src, dest) ∈ copies) (moves : src ≠ dest) :
    (dest, src) ∈ copies := by
  obtain ⟨count, cycle⟩ := blocked.returns unique followed copy moves
  have two := short dest count cycle
  have one : f dest = some src := (followed src dest copy).resolve_right moves
  obtain ⟨before, earlier⟩ := blocked.exists_copy_to unique copy
  rw [steps, one, bind_some, steps_one] at two
  rcases followed before src earlier with step | same
  · rw [step, Option.some_inj] at two
    rwa [← two]
  · subst same
    exact absurd (blocked.unique_source unique earlier copy) moves

end AckFormal.Lib.CopyGraph
