import AckFormal.Lib.Links
import Mathlib.Logic.Function.Iterate

/-!
# Rings of cells

A list whose last cell leads back to its first one, and the search that goes round it.
-/

namespace AckFormal.Lib.Rings

open Links

variable {α : Type*}

/-- The cells lead to one another, and the last one to the first. -/
def Ring (next : α → α) (cells : List α) : Prop :=
  Follows (fun cell => some (next cell)) cells cells.head?

def seek (next : α → α) (stop : α → Prop) [DecidablePred stop] : Nat → α → Option α
  | 0, _ => none
  | fuel + 1, cell => if stop cell then some cell else seek next stop fuel (next cell)

variable {next : α → α} {cells : List α} {cell start : α} {stop : α → Prop}

theorem Ring.rotate {first second : List α} (ring : Ring next (first ++ second)) :
    Ring next (second ++ first) := by
  obtain ⟨front, back⟩ := follows_append.mp ring
  unfold Ring
  cases first with
  | nil => simpa using back
  | cons cell rest =>
    cases second with
    | nil => simpa using front
    | cons other rest' =>
      refine follows_append.mpr ⟨?_, ?_⟩
      · simpa using back
      · simpa using front

theorem Ring.next_mem (ring : Ring next cells) (member : cell ∈ cells) : next cell ∈ cells := by
  obtain ⟨front, back, rfl⟩ := List.append_of_mem member
  have turned := ring.rotate
  have here : some (next cell) = (back ++ front).head?.or (some cell) := turned.1
  cases whole : back ++ front with
  | nil =>
    rw [whole] at here
    have same : next cell = cell := Option.some_inj.mp here
    rw [same]
    exact member
  | cons other rest =>
    rw [whole] at here
    have same : next cell = other := Option.some_inj.mp here
    have inside : other ∈ back ++ front := by
      rw [whole]
      exact List.mem_cons_self
    rw [same]
    rcases List.mem_append.mp inside with later | earlier
    · exact List.mem_append_right _ (List.mem_cons_of_mem _ later)
    · exact List.mem_append_left _ earlier

theorem Ring.reaches (ring : Ring next cells) {other : α} (member : cell ∈ cells)
    (goal : other ∈ cells) : ∃ n, next^[n] cell = other := by
  have along : ∀ (rest : List α) (after : Option α) (start : α),
      Follows (fun c => some (next c)) (start :: rest) after →
        ∀ target ∈ start :: rest, ∃ n, next^[n] start = target := by
    intro rest
    induction rest with
    | nil =>
      intro after start linked target inside
      exact ⟨0, (List.mem_singleton.mp inside).symm⟩
    | cons following rest ih =>
      intro after start linked target inside
      rcases List.mem_cons.mp inside with rfl | later
      · exact ⟨0, rfl⟩
      · obtain ⟨n, reached⟩ := ih after following linked.2 target later
        have step : next start = following := Option.some_inj.mp linked.1
        refine ⟨n + 1, ?_⟩
        rw [Function.iterate_succ_apply, step, reached]
  obtain ⟨front, back, rfl⟩ := List.append_of_mem member
  have turned := ring.rotate
  refine along (back ++ front) _ cell turned other ?_
  grind

theorem Ring.iterate_mem (ring : Ring next cells) (member : cell ∈ cells) (n : Nat) :
    next^[n] cell ∈ cells := by
  induction n with
  | zero => exact member
  | succ n ih =>
    rw [Function.iterate_succ_apply']
    exact ring.next_mem ih

theorem seek_along [DecidablePred stop] {after : Option α}
    (linked : Follows (fun cell => some (next cell)) cells after) (first : cells.head? = some start)
    (stops : ∃ cell ∈ cells, stop cell) :
    ∃ cell ∈ cells, stop cell ∧ seek next stop cells.length start = some cell := by
  induction cells generalizing start with
  | nil => cases first
  | cons cell rest ih =>
    cases first
    by_cases here : stop cell
    · exact ⟨cell, List.mem_cons_self, here, if_pos here⟩
    · obtain ⟨later, inside, passes⟩ := stops
      have behind : later ∈ rest := by
        rcases List.mem_cons.mp inside with rfl | behind
        · exact absurd passes here
        · exact behind
      have some : rest.head? = Option.some (next cell) := by
        obtain ⟨other, rest', rfl⟩ := List.exists_cons_of_ne_nil (List.ne_nil_of_mem behind)
        exact linked.1.symm
      obtain ⟨found, member, passes, result⟩ := ih linked.2 some ⟨later, behind, passes⟩
      refine ⟨found, List.mem_cons_of_mem _ member, passes, ?_⟩
      exact (if_neg here).trans result

theorem seek_ring [DecidablePred stop] (ring : Ring next cells) (member : start ∈ cells)
    (stops : ∃ cell ∈ cells, stop cell) :
    ∃ cell ∈ cells, stop cell ∧ seek next stop cells.length start = some cell := by
  obtain ⟨front, back, rfl⟩ := List.append_of_mem member
  have turned := ring.rotate
  have same : ∀ cell, cell ∈ start :: back ++ front ↔ cell ∈ front ++ start :: back := by
    intro cell
    grind
  obtain ⟨cell, inside, passes⟩ := stops
  obtain ⟨found, within, passed, result⟩ :=
    seek_along turned rfl ⟨cell, (same cell).mpr inside, passes⟩
  refine ⟨found, (same found).mp within, passed, ?_⟩
  rw [List.length_append, Nat.add_comm, ← List.length_append]
  exact result

theorem seek_mono [DecidablePred stop] {fuel more : Nat} (le : fuel ≤ more)
    (found : seek next stop fuel start = some cell) : seek next stop more start = some cell := by
  induction fuel generalizing start more with
  | zero => cases found
  | succ fuel ih =>
    obtain ⟨more, rfl⟩ : ∃ k, more = k + 1 := ⟨more - 1, by omega⟩
    unfold seek at found ⊢
    split
    next here => rwa [if_pos here] at found
    next here =>
        rw [if_neg here] at found
        exact ih (by omega) found

end AckFormal.Lib.Rings
