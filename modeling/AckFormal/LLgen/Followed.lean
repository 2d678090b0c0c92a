import AckFormal.LLgen.Solved

/-!
# FOLLOW and director sets

At the end of the second loop the FOLLOW sets of the nonterminals and the terms in
a rule contain what can come after them, if what can come after the rule is given.
The last pass adds to an alternative that produces empty what comes after it, and
collects the sets of the alternatives after each one.
-/

namespace AckFormal.LLgen.Solved

open Lib.Settle Lib.Inclusion LLgen.Compute LLgen.Derivation
open List (mem_append_left mem_append_right mem_cons_of_mem mem_cons_self mem_map)

variable {g : Grammar} {flags : Flags}

/-- What the rest of a rule can start with when `after` can come after the rule. -/
def starters (flags : Flags) (s : Sets) (next : Rule) (after : Finset Nat) : Finset Nat :=
  firstSet flags (fun n => s (.nFirst n)) next ∪ if empty flags next then after else ∅

/-- The FOLLOW sets in a rule are right when `after` can come after the rule. -/
def FollowCovered (flags : Flags) (s : Sets) (after : Finset Nat) : Rule → Prop
  | .eorule => True
  | .action next | .terminal _ next => FollowCovered flags s after next
  | .nonterm n _ _ next =>
    starters flags s next after ⊆ s (.nFollow n) ∧ FollowCovered flags s after next
  | .term q rule next =>
    starters flags s next after ⊆ s (.tFollow q.id) ∧
    (repeats q = true → FollowCovered flags s (s (.tFirst q.id)) rule) ∧
    FollowCovered flags s (s (.tFollow q.id)) rule ∧ FollowCovered flags s after next
  | .alternation _ rule next =>
    FollowCovered flags s after rule ∧ FollowCovered flags s after next

variable {s : Sets} {next p rule : Rule} {after after' : Finset Nat} {firsts : Nat → Finset Nat}
  {setp : Slot}

theorem starters_mono (fewer : after ⊆ after') :
    starters flags s next after ⊆ starters flags s next after' := by
  refine Finset.union_subset_union_right ?_
  split
  next => exact fewer
  next => exact Finset.Subset.refl _

theorem FollowCovered.mono (fewer : after ⊆ after') (covered : FollowCovered flags s after' p) :
    FollowCovered flags s after p := by
  induction p with
  | eorule => trivial
  | action next ih | terminal t next ih => exact ih covered
  | nonterm n npar lineno next ih =>
    exact ⟨(starters_mono fewer).trans covered.1, ih covered.2⟩
  | term q rule next _ ih =>
    exact ⟨(starters_mono fewer).trans covered.1, covered.2.1, covered.2.2.1, ih covered.2.2.2⟩
  | alternation l rule next ihRule ihNext => exact ⟨ihRule covered.1, ihNext covered.2⟩

theorem starters_union {set : Finset Nat} (first : starters flags s next after ⊆ set)
    (second : starters flags s next after' ⊆ set) :
    starters flags s next (after ∪ after') ⊆ set := by
  unfold starters at *
  split at first
  next nothing =>
    rw [if_pos nothing] at second ⊢
    obtain ⟨starts, either⟩ := Finset.union_subset_iff.mp first
    exact Finset.union_subset starts
      (Finset.union_subset either (Finset.union_subset_iff.mp second).2)
  next something =>
    rw [if_neg something]
    exact first

theorem FollowCovered.union (first : FollowCovered flags s after p)
    (second : FollowCovered flags s after' p) : FollowCovered flags s (after ∪ after') p := by
  induction p with
  | eorule => trivial
  | action next ih | terminal t next ih => exact ih first second
  | nonterm n npar lineno next ih =>
    exact ⟨starters_union first.1 second.1, ih first.2 second.2⟩
  | term q rule next _ ih =>
    exact ⟨starters_union first.1 second.1, first.2.1, first.2.2.1, ih first.2.2.2 second.2.2.2⟩
  | alternation l rule next ihRule ihNext =>
    exact ⟨ihRule first.1 second.1, ihNext first.2 second.2⟩

def Closed (s : Sets) (us : List (Update Slot Nat)) : Prop :=
  ∀ u ∈ us, u.src.value s ⊆ s u.dst

variable {us vs : List (Update Slot Nat)}

theorem Closed.left (closed : Closed s (us ++ vs)) : Closed s us :=
  fun u member => closed u (mem_append_left vs member)

theorem Closed.right (closed : Closed s (us ++ vs)) :
    Closed s vs :=
  fun u member => closed u (mem_append_right us member)

section

variable {q : Term} (covered : FirstCovered flags firsts s (.term q rule next))
include covered

theorem FirstCovered.later :
    FirstCovered flags firsts s next where
  terms q' rule' member :=
    covered.terms q' rule' (mem_cons_of_mem _ (mem_append_right _ member))
  links l' rule' member := covered.links l' rule' (mem_append_right _ member)

theorem FirstCovered.inner :
    FirstCovered flags firsts s rule where
  terms q' rule' member :=
    covered.terms q' rule' (mem_cons_of_mem _ (mem_append_left _ member))
  links l' rule' member := covered.links l' rule' (mem_append_left _ member)

end

section

variable {l : Link} (covered : FirstCovered flags firsts s (.alternation l rule next))
include covered

theorem FirstCovered.nextLink :
    FirstCovered flags firsts s next where
  terms q' rule' member := covered.terms q' rule' (mem_append_right _ member)
  links l' rule' member :=
    covered.links l' rule' (mem_cons_of_mem _ (mem_append_right _ member))

theorem FirstCovered.innerLink :
    FirstCovered flags firsts s rule where
  terms q' rule' member := covered.terms q' rule' (mem_append_left _ member)
  links l' rule' member :=
    covered.links l' rule' (mem_cons_of_mem _ (mem_append_left _ member))

end

/-- Where the inclusions of `first(setp, p, 1)` hold, `setp` has what the rule starts with. -/
theorem first_closed (closed : Closed s (first flags true setp false p))
    (covered : FirstCovered flags (fun n => s (.nFirst n)) s p) :
    firstSet flags (fun n => s (.nFirst n)) p ⊆ s setp := by
  induction p with
  | eorule => exact Finset.empty_subset _
  | action next ih => exact ih closed (covered.of_same rfl rfl)
  | terminal t next ih => exact closed (putin setp t) (mem_append_left _ mem_cons_self)
  | nonterm n npar lineno next ih =>
    refine Finset.union_subset
      (closed (setunion setp (.nFirst n)) (mem_append_left _ mem_cons_self)) ?_
    have rest := closed.right
    split
    next nothing =>
      rw [if_pos nothing] at rest
      exact ih rest (covered.of_same rfl rfl)
    next => exact Finset.empty_subset _
  | term q rule next _ ih =>
    refine Finset.union_subset ((covered.terms q rule mem_cons_self).trans
      (closed (setunion setp (.tFirst q.id)) (mem_append_left _ mem_cons_self))) ?_
    have rest := closed.right
    split
    next passing =>
      rw [if_pos (by simpa [passes] using passing)] at rest
      exact ih rest covered.later
    next => exact Finset.empty_subset _
  | alternation l rule next _ ih =>
    refine Finset.union_subset ((covered.links l rule mem_cons_self).trans
      (closed (setunion setp (.lSymbs l.id)) (mem_append_left _ mem_cons_self))) ?_
    have rest := closed.right
    split at rest
    next last =>
      rw [last]
      exact Finset.empty_subset _
    next => exact ih rest covered.nextLink

/-- What comes after an element has been added to its set. -/
theorem starters_closed {slot : Slot}
    (first : firstSet flags (fun n => s (.nFirst n)) next ⊆ s slot)
    (ends : Closed s (if empty flags next then [setunion slot setp] else [])) :
    starters flags s next (s setp) ⊆ s slot := by
  refine Finset.union_subset first ?_
  split
  next nothing =>
    rw [if_pos nothing] at ends
    exact ends _ mem_cons_self
  next => exact Finset.empty_subset _

/-- Where the inclusions of `follow(setp, p)` hold, the FOLLOW sets in the rule are right. -/
theorem follow_closed (closed : Closed s (follow flags setp p))
    (covered : FirstCovered flags (fun n => s (.nFirst n)) s p) :
    FollowCovered flags s (s setp) p := by
  induction p generalizing setp with
  | eorule => trivial
  | action next ih | terminal t next ih => exact ih closed (covered.of_same rfl rfl)
  | nonterm n npar lineno next ih =>
    have later : FirstCovered flags (fun n => s (.nFirst n)) s next := covered.of_same rfl rfl
    exact ⟨starters_closed (first_closed closed.left.left later) closed.left.right,
      ih closed.right later⟩
  | term q rule next ihRule ihNext =>
    have ends := closed.left.left.left.left
    have first := first_closed closed.left.left.left.right covered.later
    refine ⟨starters_closed first ends, fun again => ?_,
      ihRule closed.left.right covered.inner, ihNext closed.right covered.later⟩
    have repeated := closed.left.left.right
    rw [if_pos again] at repeated
    exact ihRule repeated covered.inner
  | alternation l rule next ihRule ihNext =>
    exact ⟨ihRule closed.left covered.innerLink, ihNext closed.right covered.nextLink⟩

/-! ### The second loop -/

def FollowUpdate (u : Update Slot Nat) : Prop :=
  u.reported = true ∧ ∃ i, u.dst = .nFollow i ∨ u.dst = .tFollow i

/-- What `follow` adds and reports. -/
theorem follow_updates (flags : Flags) (setp : Slot) (p : Rule) :
    ∀ u ∈ follow flags setp p, FollowUpdate u := by
  have both : ∀ {us vs : List (Update Slot Nat)}, (∀ u ∈ us, FollowUpdate u) →
      (∀ u ∈ vs, FollowUpdate u) → ∀ u ∈ us ++ vs, FollowUpdate u :=
    fun first second u member => (List.mem_append.mp member).elim (first u) (second u)
  have single : ∀ {slot src : Slot} {now : Prop} [Decidable now],
      (∃ i, slot = .nFollow i ∨ slot = .tFollow i) →
      ∀ u ∈ (if now then [setunion slot src] else []), FollowUpdate u := by
    intro slot src now _ isFollow u member
    split at member
    next =>
      rw [List.mem_singleton.mp member]
      exact ⟨rfl, isFollow⟩
    next => exact absurd member List.not_mem_nil
  have starts : ∀ {slot : Slot} (next : Rule), (∃ i, slot = .nFollow i ∨ slot = .tFollow i) →
      ∀ u ∈ first flags true slot false next, FollowUpdate u := by
    intro slot next isFollow u member
    rcases first_updates flags true slot false next u member with ⟨same, told⟩ | ⟨wrong, -⟩
    · exact ⟨told, same ▸ isFollow⟩
    · exact nomatch wrong
  induction p generalizing setp with
  | eorule => exact nofun
  | action next ih | terminal t next ih => exact ih setp
  | nonterm n npar lineno next ih =>
    exact both (both (starts next ⟨n, .inl rfl⟩) (single ⟨n, .inl rfl⟩)) (ih setp)
  | term q rule next ihRule ihNext =>
    refine both (both (both (both (single ⟨q.id, .inr rfl⟩) (starts next ⟨q.id, .inr rfl⟩)) ?_)
      (ihRule _)) (ihNext setp)
    split
    next => exact ihRule _
    next => exact nofun
  | alternation l rule next ihRule ihNext => exact both (ihRule setp) (ihNext setp)

theorem FirstSolved.of_same {t : Sets} (solved : FirstSolved g flags s)
    (nFirst : ∀ n, t (.nFirst n) = s (.nFirst n)) (tFirst : ∀ i, t (.tFirst i) = s (.tFirst i))
    (lSymbs : ∀ i, s (.lSymbs i) ⊆ t (.lSymbs i)) : FirstSolved g flags t := by
  have firsts : (fun n => t (.nFirst n)) = fun n => s (.nFirst n) := funext nFirst
  refine ⟨fun n a member => solved.justified n a (nFirst n ▸ member), fun n declared => ?_,
    fun n declared => ⟨fun q rule member => ?_, fun l rule member => ?_⟩⟩
  · rw [firsts, nFirst]
    exact solved.first n declared
  · rw [firsts, tFirst]
    exact (solved.covered n declared).terms q rule member
  · rw [firsts]
    exact ((solved.covered n declared).links l rule member).trans (lSymbs l.id)

structure FollowSolved (g : Grammar) (flags : Flags) (s : Sets) : Prop extends
    FirstSolved g flags s where
  started : ∀ n ∈ g.start, eofile ∈ s (.nFollow n)
  followed : ∀ n < g.nonterms.length, FollowCovered flags s (s (.nFollow n)) (g.rule n)

def withEofile (g : Grammar) (s : Sets) : Sets :=
  (run (g.start.map fun n => putin (.nFollow n) eofile) s).1

theorem withEofile_other (s : Sets) {i : Slot} (other : ∀ n, i ≠ .nFollow n) :
    withEofile g s i = s i := by
  refine run_frame (fun u member => ?_) s
  obtain ⟨n, -, rfl⟩ := mem_map.mp member
  exact (other n).symm

theorem withEofile_start (s : Sets) {n : Nat} (start : n ∈ g.start) :
    eofile ∈ withEofile g s (.nFollow n) := by
  have among : putin (.nFollow n) eofile ∈ g.start.map fun n => putin (.nFollow n) eofile :=
    List.mem_map_of_mem start
  have added := run_adds among (fun _ _ => nofun) s
  exact added (Finset.mem_singleton_self eofile)

theorem follows_solved {t : Sets} (solved : FirstSolved g flags s) {fuel : Nat}
    (ended : settle ((follows g flags).map run) fuel (withEofile g s) = some t) :
    FollowSolved g flags t := by
  have updates : ∀ us ∈ follows g flags, ∀ u ∈ us, FollowUpdate u := by
    intro us member
    obtain ⟨n, -, rfl⟩ := mem_map.mp member
    exact follow_updates flags _ _
  have same : ∀ i : Slot, (∀ n, i ≠ .nFollow n ∧ i ≠ .tFollow n) → t i = s i := by
    intro i other
    rw [runs_frame (fun us member u among dst => ?_) ended, withEofile_other s fun n => (other n).1]
    obtain ⟨-, n, nonterm | term⟩ := updates us member u among
    · exact (other n).1 (dst.symm.trans nonterm)
    · exact (other n).2 (dst.symm.trans term)
  have closed := runs_closed (fun us member u among => (updates us member u among).1) ended
  have first : FirstSolved g flags t := solved.of_same (fun n => same _ (by simp))
    (fun i => same _ (by simp)) fun i => (same (.lSymbs i) (by simp)).symm.subset
  refine ⟨first, fun n start => ?_, fun n declared => ?_⟩
  · exact runs_mono ended _ (withEofile_start s start)
  · exact follow_closed (closed _ (List.mem_map_of_mem (mem_range.mpr declared)))
      (first.covered n declared)

end AckFormal.LLgen.Solved
