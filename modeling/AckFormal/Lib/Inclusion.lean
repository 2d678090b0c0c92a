import AckFormal.Lib.Settle
import Mathlib.Algebra.Order.BigOperators.Group.Finset
import Mathlib.Algebra.Ring.Nat

/-!
# Families of finite sets that grow

A program that computes sets by unions: each update adds one set of the family, or
one element, to another one.  What the updates add is described by inclusions.
A family inside a solution of the inclusions stays inside it, and where a sweep
has changed nothing the inclusions hold.
-/

namespace AckFormal.Lib.Inclusion

open Lib.Settle
open List (map_cons mem_cons mem_cons_of_mem mem_cons_self mem_map)

variable {ι α : Type*} [DecidableEq ι] [DecidableEq α]

inductive Source (ι α : Type*) where
  | set (i : ι)
  | element (a : α)

/-- An addition to the set `dst`; whether it tells that the set has changed. -/
structure Update (ι α : Type*) where
  dst : ι
  src : Source ι α
  reported : Bool := true

def Source.value (s : ι → Finset α) : Source ι α → Finset α
  | .set i => s i
  | .element a => {a}

def Update.apply (u : Update ι α) (s : ι → Finset α) : (ι → Finset α) × Bool :=
  (Function.update s u.dst (u.src.value s ∪ s u.dst),
    u.reported && decide (¬ u.src.value s ⊆ s u.dst))

def Update.silent (u : Update ι α) : Update ι α :=
  { u with reported := false }

def run (us : List (Update ι α)) (s : ι → Finset α) : (ι → Finset α) × Bool :=
  sweep (us.map Update.apply) s false

theorem run_append (us vs : List (Update ι α)) (s : ι → Finset α) :
    (run (us ++ vs) s).1 = (run vs (run us s).1).1 := by
  rw [run, List.map_append, sweep_append, sweep_state]
  rfl

theorem run_cons (u : Update ι α) (us : List (Update ι α)) (s : ι → Finset α) :
    (run (u :: us) s).1 = (run us (u.apply s).1).1 := by
  rw [run, map_cons, sweep, sweep_state]
  rfl

variable {i : ι} {us : List (Update ι α)} {u : Update ι α} {m : ι → Set α} {s t : ι → Finset α}
  {slots : Finset ι} {elements : Finset α} {fuel : Nat}

theorem apply_of_ne (u : Update ι α) (s : ι → Finset α) (other : i ≠ u.dst) :
    (u.apply s).1 i = s i :=
  Function.update_of_ne other _ _

theorem apply_dst (u : Update ι α) (s : ι → Finset α) :
    (u.apply s).1 u.dst = u.src.value s ∪ s u.dst :=
  Function.update_self ..

theorem apply_mono (u : Update ι α) (s : ι → Finset α) (i : ι) : s i ⊆ (u.apply s).1 i := by
  by_cases here : i = u.dst
  · rw [here, apply_dst]
    exact Finset.subset_union_right
  · rw [apply_of_ne u s here]

theorem run_mono (us : List (Update ι α)) (s : ι → Finset α) (i : ι) : s i ⊆ (run us s).1 i := by
  induction us generalizing s with
  | nil => exact Finset.Subset.refl _
  | cons u us ih =>
    rw [run_cons]
    exact (apply_mono u s i).trans (ih _)

theorem run_frame (apart : ∀ u ∈ us, u.dst ≠ i) (s : ι → Finset α) : (run us s).1 i = s i := by
  induction us generalizing s with
  | nil => rfl
  | cons u us ih =>
    rw [run_cons, ih (fun v member => apart v (mem_cons_of_mem _ member)),
      apply_of_ne u s (apart u mem_cons_self).symm]

theorem run_silent (us : List (Update ι α)) (s : ι → Finset α) :
    (run (us.map Update.silent) s).1 = (run us s).1 := by
  induction us generalizing s with
  | nil => rfl
  | cons u us ih =>
    rw [map_cons, run_cons, run_cons, ih]
    rfl

theorem value_of_ne {src : Source ι α} (u : Update ι α) (apart : src ≠ .set u.dst)
    (s : ι → Finset α) : src.value (u.apply s).1 = src.value s := by
  cases src with
  | set i => exact apply_of_ne u s fun same => apart (congrArg Source.set same)
  | element a => rfl

/-- Every update of a list is carried out; what it adds is known if nothing is added to it. -/
theorem run_adds (member : u ∈ us) (apart : ∀ v ∈ us, u.src ≠ .set v.dst) (s : ι → Finset α) :
    u.src.value s ⊆ (run us s).1 u.dst := by
  induction us generalizing s with
  | nil => exact absurd member List.not_mem_nil
  | cons v us ih =>
    have later := fun w inTail => apart w (mem_cons_of_mem v inTail)
    rw [run_cons]
    rcases mem_cons.mp member with rfl | inTail
    · refine Finset.Subset.trans ?_ (run_mono us _ _)
      rw [apply_dst]
      exact Finset.subset_union_left
    · rw [← value_of_ne v (apart v mem_cons_self) s]
      exact ih inTail later _

def Update.Inside (m : ι → Set α) (u : Update ι α) : Prop :=
  match u.src with
  | .set i => m i ⊆ m u.dst
  | .element a => a ∈ m u.dst

theorem apply_inside (inside : u.Inside m) (within : ∀ i, ↑(s i) ⊆ m i) (i : ι) :
    ↑((u.apply s).1 i) ⊆ m i := by
  by_cases here : i = u.dst
  · rw [here, apply_dst, Finset.coe_union]
    refine Set.union_subset ?_ (within u.dst)
    unfold Update.Inside at inside
    cases source : u.src with
    | set j =>
      rw [source] at inside
      exact (within j).trans inside
    | element a =>
      rw [source] at inside
      rw [Source.value, Finset.coe_singleton, Set.singleton_subset_iff]
      exact inside
  · rw [apply_of_ne u s here]
    exact within i

theorem run_inside (inside : ∀ u ∈ us, u.Inside m) (within : ∀ i, ↑(s i) ⊆ m i) (i : ι) :
    ↑((run us s).1 i) ⊆ m i := by
  induction us generalizing s with
  | nil => exact within i
  | cons u us ih =>
    rw [run_cons]
    exact ih (fun v member => inside v (mem_cons_of_mem _ member))
      (apply_inside (inside u mem_cons_self) within)

/-! ### Termination -/

def size (slots : Finset ι) (s : ι → Finset α) : Nat := ∑ i ∈ slots, (s i).card

omit [DecidableEq ι] [DecidableEq α] in
theorem size_mono (slots : Finset ι) (grown : ∀ i, s i ⊆ t i) : size slots s ≤ size slots t :=
  Finset.sum_le_sum fun i _ => Finset.card_le_card (grown i)

omit [DecidableEq ι] [DecidableEq α] in
theorem size_bounded (within : ∀ i, s i ⊆ elements) : size slots s ≤ slots.card * elements.card :=
  calc size slots s ≤ ∑ _i ∈ slots, elements.card :=
        Finset.sum_le_sum fun i _ => Finset.card_le_card (within i)
    _ = slots.card * elements.card := Finset.sum_const_nat fun _ _ => rfl

/-- An update makes progress where its set is counted and what it adds is among the elements. -/
theorem Update.progress (counted : u.dst ∈ slots) (inside : u.Inside fun _ => (elements : Set α)) :
    Progress (fun s : ι → Finset α => ∀ i, s i ⊆ elements) (size slots) u.apply where
  keeps s within i := by
    have after := apply_inside inside (fun i => Finset.coe_subset.mpr (within i)) i
    exact Finset.coe_subset.mp after
  mono s _ := size_mono slots (apply_mono u s)
  raises s _ changed := by
    have new : ¬ u.src.value s ⊆ s u.dst := by
      have both := (Bool.and_eq_true _ _).mp changed
      exact of_decide_eq_true both.2
    refine Finset.sum_lt_sum (fun i _ => Finset.card_le_card (apply_mono u s i))
      ⟨u.dst, counted, Finset.card_lt_card ?_⟩
    rw [apply_dst]
    exact ⟨Finset.subset_union_right, fun most => new (Finset.subset_union_left.trans most)⟩

theorem run_progress (counted : ∀ u ∈ us, u.dst ∈ slots)
    (inside : ∀ u ∈ us, u.Inside fun _ => (elements : Set α)) :
    Progress (fun s : ι → Finset α => ∀ i, s i ⊆ elements) (size slots) (run us) := by
  refine Progress.sweep fun step member => ?_
  obtain ⟨u, among, rfl⟩ := mem_map.mp member
  exact Update.progress (counted u among) (inside u among)

def Bounded (s : ι → Finset α) : Prop := ∃ elements : Finset α, ∀ i, s i ⊆ elements

def added (us : List (Update ι α)) : Finset α :=
  (us.filterMap fun u =>
    match u.src with
    | .set _ => none
    | .element a => some a).toFinset

omit [DecidableEq ι] in
theorem inside_added (member : u ∈ us) (subset : added us ⊆ elements) :
    u.Inside fun _ : ι => (elements : Set α) := by
  unfold Update.Inside
  split
  next => exact subset_rfl
  next a source =>
    refine subset (List.mem_toFinset.mpr (List.mem_filterMap.mpr ⟨u, member, ?_⟩))
    rw [source]

theorem Bounded.run (bounded : Bounded s) (us : List (Update ι α)) : Bounded (run us s).1 := by
  obtain ⟨elements, within⟩ := bounded
  refine ⟨elements ∪ added us, fun i => Finset.coe_subset.mp (run_inside
    (fun u member => inside_added member Finset.subset_union_right) (fun i => ?_) i)⟩
  exact Finset.coe_subset.mpr ((within i).trans Finset.subset_union_left)

variable {programs : List (List (Update ι α))}

/-- The loop over programs of updates ends from every family that is bounded. -/
theorem runs_end (programs : List (List (Update ι α))) (bounded : Bounded s) :
    ∃ t, Bounded t ∧ ∃ enough, ∀ fuel ≥ enough, settle (programs.map run) fuel s = some t := by
  obtain ⟨elements, within⟩ := bounded
  have progress : ∀ step ∈ programs.map run, Progress
      (fun s : ι → Finset α => ∀ i, s i ⊆ elements ∪ added programs.flatten)
      (size (programs.flatten.map Update.dst).toFinset) step := by
    intro step member
    obtain ⟨us, among, rfl⟩ := mem_map.mp member
    have flat := fun u (inside : u ∈ us) => List.mem_flatten.mpr ⟨us, among, inside⟩
    exact run_progress
      (fun u inside => List.mem_toFinset.mpr (List.mem_map_of_mem (flat u inside)))
      (fun u inside => inside_added (flat u inside) Finset.subset_union_right)
  have start : ∀ i, s i ⊆ elements ∪ added programs.flatten :=
    fun i => (within i).trans Finset.subset_union_left
  obtain ⟨t, enough, ends⟩ := settle_ends progress (fun _ inside => size_bounded inside) s start
  exact ⟨t, ⟨_, settle_keeps (fun step member => (progress step member).keeps) start
    (ends enough (Nat.le_refl _))⟩, enough, ends⟩

/-! ### The last sweep -/

theorem sweep_runs_mono (programs : List (List (Update ι α))) (s : ι → Finset α) (changed : Bool)
    (i : ι) : s i ⊆ (sweep (programs.map run) s changed).1 i := by
  induction programs generalizing s changed with
  | nil => exact Finset.Subset.refl _
  | cons us programs ih => exact (run_mono us s i).trans (ih _ _)

theorem sweep_runs (member : us ∈ programs) (s : ι → Finset α) (changed : Bool) :
    ∃ a, (∀ i, s i ⊆ a i) ∧ ∀ i, (run us a).1 i ⊆ (sweep (programs.map run) s changed).1 i := by
  induction programs generalizing s changed with
  | nil => exact absurd member List.not_mem_nil
  | cons vs programs ih =>
    rcases mem_cons.mp member with rfl | inTail
    · exact ⟨s, fun _ => Finset.Subset.refl _, fun i => sweep_runs_mono programs _ _ i⟩
    · obtain ⟨a, before, after⟩ := ih inTail (run vs s).1 (changed || (run vs s).2)
      exact ⟨a, fun i => (run_mono vs s i).trans (before i), after⟩

/-- Where a list of updates reports no change, a set whose changes are reported is as before. -/
theorem run_quiet (reported : ∀ u ∈ us, u.dst = i → u.reported = true)
    (quiet : (run us s).2 = false) : (run us s).1 i = s i := by
  induction us generalizing s with
  | nil => rfl
  | cons u us ih =>
    rw [run, map_cons, sweep, Bool.false_or] at quiet
    cases still : (u.apply s).2 with
    | true =>
      rw [still, sweep_changed] at quiet
      exact Bool.noConfusion quiet
    | false =>
      rw [still] at quiet
      rw [run_cons, ih (fun v member => reported v (mem_cons_of_mem _ member)) quiet]
      by_cases here : u.dst = i
      · have subset : u.src.value s ⊆ s u.dst := by
          have told := reported u mem_cons_self here
          simpa [Update.apply, told] using still
        rw [← here, apply_dst, Finset.union_eq_right.mpr subset]
      · exact apply_of_ne u s (Ne.symm here)

theorem sweep_runs_quiet (reported : ∀ us ∈ programs, ∀ u ∈ us, u.dst = i → u.reported = true)
    (quiet : (sweep (programs.map run) s false).2 = false) :
    (sweep (programs.map run) s false).1 i = s i := by
  induction programs generalizing s with
  | nil => rfl
  | cons us programs ih =>
    rw [map_cons, sweep, Bool.false_or] at quiet ⊢
    cases still : (run us s).2 with
    | true =>
      rw [still, sweep_changed] at quiet
      exact Bool.noConfusion quiet
    | false =>
      rw [still] at quiet
      rw [ih (fun vs member => reported vs (mem_cons_of_mem _ member)) quiet,
        run_quiet (reported us mem_cons_self) still]

section

variable (inside : ∀ us ∈ programs, ∀ u ∈ us, u.Inside m) (within : ∀ i, ↑(s i) ⊆ m i)
  (ended : settle (programs.map run) fuel s = some t)
include inside within ended

theorem runs_last :
    ∃ last, (∀ i, ↑(last i) ⊆ m i) ∧ sweep (programs.map run) last false = (t, false) := by
  refine settle_last (P := fun s : ι → Finset α => ∀ i, ↑(s i) ⊆ m i) ?_ within ended
  intro step member s now
  obtain ⟨us, among, rfl⟩ := mem_map.mp member
  exact run_inside (inside us among) now

theorem runs_inside (i : ι) : ↑(t i) ⊆ m i := by
  refine settle_keeps (P := fun s : ι → Finset α => ∀ i, ↑(s i) ⊆ m i) ?_ within ended i
  intro step member s now
  obtain ⟨us, among, rfl⟩ := mem_map.mp member
  exact run_inside (inside us among) now

end

theorem runs_mono (ended : settle (programs.map run) fuel s = some t) (i : ι) : s i ⊆ t i := by
  refine settle_keeps (P := fun s' : ι → Finset α => s i ⊆ s' i) ?_ (Finset.Subset.refl _) ended
  intro step member s' before
  obtain ⟨us, -, rfl⟩ := mem_map.mp member
  exact before.trans (run_mono us s' i)

theorem runs_frame (apart : ∀ us ∈ programs, ∀ u ∈ us, u.dst ≠ i)
    (ended : settle (programs.map run) fuel s = some t) : t i = s i := by
  refine settle_keeps (P := fun s' : ι → Finset α => s' i = s i) ?_ rfl ended
  intro step member s' same
  obtain ⟨us, among, rfl⟩ := mem_map.mp member
  rw [run_frame (apart us among), same]

theorem apply_honest (reported : u.reported = true) : Honest u.apply := by
  intro s still
  have subset : u.src.value s ⊆ s u.dst := by
    simpa [Update.apply, reported] using still
  change Function.update s u.dst (u.src.value s ∪ s u.dst) = s
  rw [Finset.union_eq_right.mpr subset, Function.update_eq_self]

/-- Where all updates are reported, the inclusions hold at the end of the loop. -/
theorem runs_closed (reported : ∀ us ∈ programs, ∀ u ∈ us, u.reported = true)
    (ended : settle (programs.map run) fuel s = some t) :
    ∀ us ∈ programs, ∀ u ∈ us, u.src.value t ⊆ t u.dst := by
  intro us member u among
  have honest : ∀ vs ∈ programs, ∀ step ∈ vs.map Update.apply, Honest step := by
    intro vs program step isUpdate
    obtain ⟨v, inside, rfl⟩ := mem_map.mp isUpdate
    exact apply_honest (reported vs program v inside)
  have quiet : (run us t).2 = false := by
    refine settle_fixed (fun step isRun => ?_) ended _ (List.mem_map_of_mem member)
    obtain ⟨vs, program, rfl⟩ := mem_map.mp isRun
    exact Honest.sweep (honest vs program)
  have still := (sweep_quiet (honest us member) t quiet).2 _ (List.mem_map_of_mem among)
  simpa [Update.apply, reported us member u among] using still

end AckFormal.Lib.Inclusion
