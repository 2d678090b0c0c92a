import Mathlib.Data.List.Basic
import Mathlib.Data.List.Pairwise
import Mathlib.Algebra.Order.Ring.Int

/-!
# Lists of intervals

The timespans and lifetimes of register allocation: sorted lists of intervals of instruction numbers. An
interval without instructions ends just before it starts.
-/

namespace AckFormal.Ego.Interv

open List (length_cons mem_append mem_append_right mem_cons mem_cons_self mem_reverse pairwise_cons)

structure Interval where
  start : Int
  stop : Int
  deriving DecidableEq

namespace Interval

def Has (i : Interval) (t : Int) : Prop := i.start ≤ t ∧ t ≤ i.stop

end Interval

def Times (list : List Interval) (t : Int) : Prop := ∃ i ∈ list, i.Has t

@[simp]
theorem times_nil (t : Int) : ¬ Times [] t := by simp [Times]

variable {rest list1 list2 : List Interval} {t t1 t2 : Int} {fuel : Nat} {i : Interval}

@[simp]
theorem times_cons :
    Times (i :: rest) t ↔ i.Has t ∨ Times rest t := List.exists_mem_cons_iff _ _ _

@[simp]
theorem times_append {first second : List Interval} :
    Times (first ++ second) t ↔ Times first t ∨ Times second t := by
  simp only [Times, mem_append, or_and_right, exists_or]

structure Chronological (list : List Interval) : Prop where
  ordered : list.Pairwise fun i j => i.stop < j.start
  whole : ∀ i ∈ list, i.start ≤ i.stop + 1

theorem Chronological.nil : Chronological [] := ⟨List.Pairwise.nil, by simp⟩

theorem Chronological.single (whole : i.start ≤ i.stop + 1) : Chronological [i] :=
  ⟨List.pairwise_singleton _ _, by simpa using whole⟩

theorem Chronological.tail (sorted : Chronological (i :: rest)) :
    Chronological rest :=
  ⟨(pairwise_cons.mp sorted.ordered).2, fun j member => sorted.whole j (List.mem_cons_of_mem i member)⟩

theorem Chronological.head {rest : List Interval} (sorted : Chronological (i :: rest)) :
    (∀ j ∈ rest, i.stop < j.start) ∧ i.start ≤ i.stop + 1 :=
  ⟨(pairwise_cons.mp sorted.ordered).1, sorted.whole i mem_cons_self⟩

/-! ## Adding an interval -/

/-- Joining the interval with the one before it, if they are adjacent. -/
def joinBack (t1 : Int) : List Interval → Int × List Interval
  | [] => (t1, [])
  | x1 :: back => if t1 = x1.stop + 1 then (x1.start, back) else (t1, x1 :: back)

def joinNext (t2 : Int) : List Interval → Int × List Interval
  | [] => (t2, [])
  | x2 :: rest => if t2 + 1 = x2.start then (x2.stop, rest) else (t2, x2 :: rest)

/-- `add_interval` at the place found: `back` holds the intervals before it, the nearest one first. -/
def place (t1 t2 : Int) (back rest : List Interval) : List Interval :=
  (joinBack t1 back).2.reverse ++
    ⟨(joinBack t1 back).1, (joinNext t2 rest).1⟩ :: (joinNext t2 rest).2

/-- The search of `add_interval` for its place. -/
def addGo (t1 t2 : Int) : List Interval → List Interval → List Interval
  | back, [] => place t1 t2 back []
  | back, x2 :: rest =>
    if t2 < x2.start then place t1 t2 back (x2 :: rest) else addGo t1 t2 (x2 :: back) rest

def addInterval (t1 t2 : Int) (list : List Interval) : List Interval := addGo t1 t2 [] list

def Fits (t1 t2 : Int) (list : List Interval) : Prop := ∀ i ∈ list, i.stop < t1 ∨ t2 < i.start

structure Added (t1 t2 : Int) (list result : List Interval) : Prop where
  sorted : Chronological result
  times : ∀ t, Times result t ↔ Times list t ∨ (t1 ≤ t ∧ t ≤ t2)
  stops : ∀ i ∈ result, i.stop = t2 ∨ ∃ j ∈ list, i.stop = j.stop

theorem joinBack_spec {back : List Interval} (whole : ∀ i ∈ back, i.start ≤ i.stop + 1)
    (ordered : back.Pairwise fun i j => j.stop < i.start) (before : ∀ i ∈ back, i.stop < t1) :
    (joinBack t1 back).1 ≤ t1 ∧ (joinBack t1 back).2.Sublist back ∧
      (∀ i ∈ (joinBack t1 back).2, i.stop < (joinBack t1 back).1) ∧
        ∀ t e, t1 ≤ e + 1 →
          (Times (joinBack t1 back).2 t ∨ ((joinBack t1 back).1 ≤ t ∧ t ≤ e) ↔
            Times back t ∨ (t1 ≤ t ∧ t ≤ e)) := by
  cases back with
  | nil => exact ⟨Int.le_refl _, List.Sublist.refl _, by simp [joinBack], fun t e _ => Iff.rfl⟩
  | cons x1 back =>
    have order := pairwise_cons.mp ordered
    have one := whole x1 mem_cons_self
    by_cases joins : t1 = x1.stop + 1
    · have joined : joinBack t1 (x1 :: back) = (x1.start, back) := if_pos joins
      rw [joined]
      refine ⟨by dsimp only; omega, List.sublist_cons_self x1 back, order.1, fun t e some => ?_⟩
      have has : (x1.start ≤ t ∧ t ≤ e) ↔ x1.Has t ∨ (t1 ≤ t ∧ t ≤ e) := by
        unfold Interval.Has
        omega
      simp only [times_cons]
      grind
    · have apart : joinBack t1 (x1 :: back) = (t1, x1 :: back) := if_neg joins
      rw [apart]
      exact ⟨Int.le_refl _, List.Sublist.refl _, before, fun t e _ => Iff.rfl⟩

theorem joinNext_spec (sorted : Chronological rest) (after : ∀ i ∈ rest, t2 < i.start) :
    t2 ≤ (joinNext t2 rest).1 ∧ (joinNext t2 rest).2.Sublist rest ∧
      (∀ i ∈ (joinNext t2 rest).2, (joinNext t2 rest).1 < i.start) ∧
        ((joinNext t2 rest).1 = t2 ∨ ∃ i ∈ rest, (joinNext t2 rest).1 = i.stop) ∧
          ∀ t s, s ≤ t2 + 1 →
            ((s ≤ t ∧ t ≤ (joinNext t2 rest).1) ∨ Times (joinNext t2 rest).2 t ↔
              (s ≤ t ∧ t ≤ t2) ∨ Times rest t) := by
  cases rest with
  | nil => exact ⟨Int.le_refl _, List.Sublist.refl _, by simp [joinNext], Or.inl rfl, fun t s _ => Iff.rfl⟩
  | cons x2 rest =>
    obtain ⟨order, one⟩ := sorted.head
    by_cases joins : t2 + 1 = x2.start
    · have joined : joinNext t2 (x2 :: rest) = (x2.stop, rest) := if_pos joins
      rw [joined]
      refine ⟨by dsimp only; omega, List.sublist_cons_self x2 rest, order,
        Or.inr ⟨x2, mem_cons_self, rfl⟩, fun t s some => ?_⟩
      have has : (s ≤ t ∧ t ≤ x2.stop) ↔ (s ≤ t ∧ t ≤ t2) ∨ x2.Has t := by
        unfold Interval.Has
        omega
      simp only [times_cons]
      grind
    · have apart : joinNext t2 (x2 :: rest) = (t2, x2 :: rest) := if_neg joins
      rw [apart]
      exact ⟨Int.le_refl _, List.Sublist.refl _, after, Or.inl rfl, fun t s _ => Iff.rfl⟩

theorem times_reverse {list : List Interval} : Times list.reverse t ↔ Times list t := by
  simp only [Times, mem_reverse]

/-- The interval comes between those before it and those after it. -/
theorem place_added (some : t1 ≤ t2 + 1) {back : List Interval}
    (sorted : Chronological (back.reverse ++ rest)) (before : ∀ i ∈ back, i.stop < t1)
    (after : ∀ i ∈ rest, t2 < i.start) :
    Added t1 t2 (back.reverse ++ rest) (place t1 t2 back rest) := by
  have order := List.pairwise_append.mp sorted.ordered
  have backWhole : ∀ i ∈ back, i.start ≤ i.stop + 1 := fun i member =>
    sorted.whole i (List.mem_append_left rest (mem_reverse.mpr member))
  have restSorted : Chronological rest :=
    ⟨order.2.1, fun i member => sorted.whole i (mem_append_right back.reverse member)⟩
  obtain ⟨low, backSub, backLess, backTimes⟩ :=
    joinBack_spec backWhole (List.pairwise_reverse.mp order.1) before
  obtain ⟨high, restSub, restMore, stop, restTimes⟩ := joinNext_spec restSorted after
  have least : ∀ i ∈ (joinBack t1 back).2, i.stop < t1 := fun i member =>
    before i (backSub.subset member)
  refine ⟨⟨?_, ?_⟩, fun t => ?_, ?_⟩
  · refine List.pairwise_append.mpr ⟨?_, pairwise_cons.mpr ⟨restMore, ?_⟩, ?_⟩
    · exact List.pairwise_reverse.mpr ((List.pairwise_reverse.mp order.1).sublist backSub)
    · exact order.2.1.sublist restSub
    · intro i early j late
      have inside := mem_reverse.mp early
      rcases mem_cons.mp late with rfl | late
      · exact backLess i inside
      · have one := least i inside
        have two := after j (restSub.subset late)
        omega
  · intro i member
    rcases mem_append.mp member with early | late
    · exact backWhole i (backSub.subset (mem_reverse.mp early))
    · rcases mem_cons.mp late with rfl | late
      · dsimp only
        omega
      · exact restSorted.whole i (restSub.subset late)
  · have left := backTimes t (joinNext t2 rest).1 (by omega)
    have right := restTimes t t1 some
    have middle : (⟨(joinBack t1 back).1, (joinNext t2 rest).1⟩ : Interval).Has t ↔
        (joinBack t1 back).1 ≤ t ∧ t ≤ (joinNext t2 rest).1 := Iff.rfl
    unfold place
    rw [times_append, times_cons, times_reverse, times_append, times_reverse, middle, ← or_assoc,
      left, or_assoc, right, ← or_assoc]
    exact or_right_comm
  · intro i member
    rcases mem_append.mp member with early | late
    · have inside := backSub.subset (mem_reverse.mp early)
      exact Or.inr ⟨i, List.mem_append_left rest (mem_reverse.mpr inside), rfl⟩
    · rcases mem_cons.mp late with rfl | late
      · rcases stop with same | ⟨j, inside, same⟩
        · exact Or.inl same
        · exact Or.inr ⟨j, mem_append_right _ inside, same⟩
      · exact Or.inr ⟨i, mem_append_right _ (restSub.subset late), rfl⟩

theorem addGo_added (some : t1 ≤ t2 + 1) (back : List Interval)
    (sorted : Chronological (back.reverse ++ rest)) (before : ∀ i ∈ back, i.stop < t1)
    (fits : Fits t1 t2 rest) : Added t1 t2 (back.reverse ++ rest) (addGo t1 t2 back rest) := by
  induction rest generalizing back with
  | nil => exact place_added some sorted before (by simp)
  | cons x2 rest ih =>
    have restSorted : Chronological (x2 :: rest) :=
      ⟨(List.pairwise_append.mp sorted.ordered).2.1,
        fun i member => sorted.whole i (mem_append_right back.reverse member)⟩
    obtain ⟨order, one⟩ := restSorted.head
    by_cases here : t2 < x2.start
    · have found : addGo t1 t2 back (x2 :: rest) = place t1 t2 back (x2 :: rest) := if_pos here
      rw [found]
      refine place_added some sorted before fun i member => ?_
      rcases mem_cons.mp member with rfl | member
      · exact here
      · have more := order i member
        omega
    · have next : addGo t1 t2 back (x2 :: rest) = addGo t1 t2 (x2 :: back) rest := if_neg here
      have shift : back.reverse ++ x2 :: rest = (x2 :: back).reverse ++ rest := by simp
      rw [next, shift]
      refine ih (x2 :: back) (by rwa [← shift]) (fun i member => ?_)
        fun i member => fits i (List.mem_cons_of_mem x2 member)
      rcases mem_cons.mp member with rfl | member
      · exact (fits i mem_cons_self).resolve_right here
      · exact before i member

theorem addInterval_added (some : t1 ≤ t2 + 1) {list : List Interval} (sorted : Chronological list)
    (fits : Fits t1 t2 list) : Added t1 t2 list (addInterval t1 t2 list) :=
  addGo_added some [] sorted (by simp) fits

/-! ## Intersecting two lists -/

/-- The loop of `intersect`; `set_min_max` makes the list whose first interval starts first the
first of the two, and each round drops an interval. -/
def intersectLoop : Nat → List Interval → List Interval → List Interval → List Interval
  | fuel + 1, x :: xs, y :: ys, lt =>
    let (a, as, b, bs) := if x.start < y.start then (x, xs, y, ys) else (y, ys, x, xs)
    if b.start > a.stop then intersectLoop fuel as (b :: bs) lt
    else if b.stop < a.stop then
      intersectLoop fuel (a :: as) bs (addInterval b.start b.stop lt)
    else if b.stop = a.stop then intersectLoop fuel as bs (addInterval b.start a.stop lt)
    else intersectLoop fuel as (b :: bs) (addInterval b.start a.stop lt)
  | _, _, _, lt => lt

def intersect (list1 list2 : List Interval) : List Interval :=
  intersectLoop (list1.length + list2.length) list1 list2 []

def notDisjointLoop : Nat → List Interval → List Interval → Bool
  | fuel + 1, x :: xs, y :: ys =>
    let (a, as, b, bs) := if x.start < y.start then (x, xs, y, ys) else (y, ys, x, xs)
    if b.start > a.stop then notDisjointLoop fuel as (b :: bs) else true
  | _, _, _ => false

def notDisjoint (list1 list2 : List Interval) : Bool :=
  notDisjointLoop (list1.length + list2.length) list1 list2

section

variable {a : Interval} {as : List Interval} (sorted : Chronological (a :: as))
include sorted

theorem after_stop (later : Times as t) : a.stop < t := by
  obtain ⟨i, member, low, -⟩ := later
  have more := sorted.head.1 i member
  omega

theorem after_start (inside : Times (a :: as) t) : a.start ≤ t := by
  have whole := sorted.head.2
  rcases times_cons.mp inside with here | later
  · exact here.1
  · have more := after_stop sorted later
    omega

end

structure Round (a : Interval) (as : List Interval) (b : Interval) (bs : List Interval)
    (stop : Int) (as' bs' : List Interval) : Prop where
  sortedA : Chronological as'
  sortedB : Chronological bs'
  shorter : as'.length + bs'.length < (a :: as).length + (b :: bs).length
  full : b.start ≤ stop + 1
  times : ∀ t, Times (a :: as) t ∧ Times (b :: bs) t ↔
    (b.start ≤ t ∧ t ≤ stop) ∨ (Times as' t ∧ Times bs' t)
  later : ∀ i ∈ as'.head?, ∀ j ∈ bs'.head?, stop < max i.start j.start

variable {a b : Interval} {as bs : List Interval}

theorem apart_times (sortedB : Chronological (b :: bs)) (apart : a.stop < b.start) (t : Int) :
    Times (a :: as) t ∧ Times (b :: bs) t ↔ Times as t ∧ Times (b :: bs) t := by
  refine and_congr_left fun inside => ⟨fun either => ?_, fun later => times_cons.mpr (Or.inr later)⟩
  refine (times_cons.mp either).resolve_left fun here => ?_
  have low := after_start sortedB inside
  have high := here.2
  omega

section

variable (sortedA : Chronological (a :: as)) (sortedB : Chronological (b :: bs))
  (first : a.start ≤ b.start)
include sortedA sortedB first

theorem inner_round (inner : b.stop < a.stop) :
    Round a as b bs b.stop (a :: as) bs where
  sortedA := sortedA
  sortedB := sortedB.tail
  shorter := by
    simp only [length_cons]
    omega
  full := sortedB.head.2
  times := fun t => by
    have has : b.Has t → a.Has t := by
      unfold Interval.Has
      omega
    have same : (b.start ≤ t ∧ t ≤ b.stop) ↔ b.Has t := Iff.rfl
    rw [same, times_cons (i := b)]
    constructor
    · rintro ⟨inside, here | later⟩
      · exact Or.inl here
      · exact Or.inr ⟨inside, later⟩
    · rintro (here | ⟨inside, later⟩)
      · exact ⟨times_cons.mpr (Or.inl (has here)), Or.inl here⟩
      · exact ⟨inside, Or.inr later⟩
  later := fun i _ j member => by
    have more := sortedB.head.1 j (List.mem_of_mem_head? member)
    exact lt_of_lt_of_le more (le_max_right _ _)

/-- Both intervals end together. -/
theorem equal_round (same : b.stop = a.stop) : Round a as b bs a.stop as bs where
  sortedA := sortedA.tail
  sortedB := sortedB.tail
  shorter := by
    simp only [length_cons]
    omega
  full := by
    have whole := sortedB.head.2
    omega
  times := fun t => by
    have has : b.Has t ↔ b.start ≤ t ∧ t ≤ a.stop := by
      unfold Interval.Has
      omega
    have low : b.Has t → a.Has t := by
      unfold Interval.Has
      omega
    rw [← has, times_cons, times_cons]
    constructor
    · rintro ⟨hereA | laterA, hereB | laterB⟩
      · exact Or.inl hereB
      · have more := after_stop sortedB laterB
        have less := hereA.2
        omega
      · exact Or.inl hereB
      · exact Or.inr ⟨laterA, laterB⟩
    · rintro (here | ⟨laterA, laterB⟩)
      · exact ⟨Or.inl (low here), Or.inl here⟩
      · exact ⟨Or.inr laterA, Or.inr laterB⟩
  later := fun i member _ _ => by
    have more := sortedA.head.1 i (List.mem_of_mem_head? member)
    exact lt_of_lt_of_le more (le_max_left _ _)

theorem outer_round (meet : b.start ≤ a.stop) (outer : a.stop < b.stop) :
    Round a as b bs a.stop as (b :: bs) where
  sortedA := sortedA.tail
  sortedB := sortedB
  shorter := by
    simp only [length_cons]
    omega
  full := by omega
  times := fun t => by
    have low : (b.start ≤ t ∧ t ≤ a.stop) → a.Has t ∧ b.Has t := by
      unfold Interval.Has
      omega
    rw [times_cons]
    constructor
    · rintro ⟨here | later, inside⟩
      · exact Or.inl ⟨after_start sortedB inside, here.2⟩
      · exact Or.inr ⟨later, inside⟩
    · rintro (here | ⟨later, inside⟩)
      · exact ⟨Or.inl (low here).1, times_cons.mpr (Or.inl (low here).2)⟩
      · exact ⟨Or.inr later, inside⟩
  later := fun i member _ _ => by
    have more := sortedA.head.1 i (List.mem_of_mem_head? member)
    exact lt_of_lt_of_le more (le_max_left _ _)

end

/-- What has been emitted ends before the next interval that can be. -/
def Emitted (lt list1 list2 : List Interval) : Prop :=
  ∀ z ∈ lt, ∀ i ∈ list1.head?, ∀ j ∈ list2.head?, z.stop < max i.start j.start

theorem emit {stop : Int} {as' bs' lt : List Interval} (round : Round a as b bs stop as' bs')
    (sorted : Chronological lt) (emitted : ∀ z ∈ lt, z.stop < b.start) :
    Chronological (addInterval b.start stop lt) ∧ Emitted (addInterval b.start stop lt) as' bs' ∧
      ∀ t, Times (addInterval b.start stop lt) t ∨ (Times as' t ∧ Times bs' t) ↔
        Times lt t ∨ (Times (a :: as) t ∧ Times (b :: bs) t) := by
  have added := addInterval_added round.full sorted fun z member => Or.inl (emitted z member)
  refine ⟨added.sorted, fun z member i first j second => ?_, fun t => ?_⟩
  · have later := round.later i first j second
    have full := round.full
    rcases added.stops z member with same | ⟨w, old, same⟩
    · omega
    · have before := emitted w old
      omega
  · rw [added.times, round.times, or_assoc]

theorem emitted_nil (list1 list2 : List Interval) : Emitted [] list1 list2 := by simp [Emitted]

/-- The loop emits the times that both lists have, in order. -/
theorem intersectLoop_spec {lt : List Interval} (enough : list1.length + list2.length ≤ fuel)
    (sorted1 : Chronological list1) (sorted2 : Chronological list2) (sorted : Chronological lt)
    (emitted : Emitted lt list1 list2) :
    Chronological (intersectLoop fuel list1 list2 lt) ∧
      ∀ t, Times (intersectLoop fuel list1 list2 lt) t ↔
        Times lt t ∨ (Times list1 t ∧ Times list2 t) := by
  induction fuel generalizing list1 list2 lt with
  | zero =>
    have none : list1 = [] := List.length_eq_zero_iff.mp (by omega)
    refine ⟨by simpa [intersectLoop] using sorted, fun t => ?_⟩
    simp [intersectLoop, none]
  | succ fuel ih =>
    cases list1 with
    | nil => exact ⟨sorted, fun t => by simp [intersectLoop]⟩
    | cons x xs =>
      cases list2 with
      | nil => exact ⟨sorted, fun t => by simp [intersectLoop]⟩
      | cons y ys =>
        -- one round, with the intervals in order
        have step : ∀ {a b : Interval} {as bs : List Interval},
            (a :: as).length + (b :: bs).length ≤ fuel + 1 → Chronological (a :: as) →
              Chronological (b :: bs) → a.start ≤ b.start → (∀ z ∈ lt, z.stop < b.start) →
                ∀ result, result = (if b.start > a.stop then intersectLoop fuel as (b :: bs) lt
                  else if b.stop < a.stop then
                    intersectLoop fuel (a :: as) bs (addInterval b.start b.stop lt)
                  else if b.stop = a.stop then
                    intersectLoop fuel as bs (addInterval b.start a.stop lt)
                  else intersectLoop fuel as (b :: bs) (addInterval b.start a.stop lt)) →
                  Chronological result ∧ ∀ t, Times result t ↔
                    Times lt t ∨ (Times (a :: as) t ∧ Times (b :: bs) t) := by
          intro a b as bs room sortedA sortedB first before result same
          have finish : ∀ {stop : Int} {as' bs' : List Interval},
              Round a as b bs stop as' bs' →
                result = intersectLoop fuel as' bs' (addInterval b.start stop lt) →
                  Chronological result ∧ ∀ t, Times result t ↔
                    Times lt t ∨ (Times (a :: as) t ∧ Times (b :: bs) t) := by
            intro stop as' bs' round same
            obtain ⟨sorted', emitted', times⟩ := emit round sorted before
            have shorter := round.shorter
            obtain ⟨fine, all⟩ := ih (by omega) round.sortedA round.sortedB sorted' emitted'
            rw [same]
            exact ⟨fine, fun t => (all t).trans (times t)⟩
          by_cases apart : b.start > a.stop
          · rw [if_pos apart] at same
            have shorter : as.length + (b :: bs).length ≤ fuel := by
              simp only [length_cons] at room ⊢
              omega
            have kept : Emitted lt as (b :: bs) := by
              intro z member i _ j second
              obtain rfl : b = j := Option.some_inj.mp second
              exact lt_of_lt_of_le (before z member) (le_max_right _ _)
            obtain ⟨fine, all⟩ := ih shorter sortedA.tail sortedB sorted kept
            rw [same]
            exact ⟨fine, fun t => (all t).trans (or_congr_right (apart_times sortedB apart t).symm)⟩
          rw [if_neg apart] at same
          by_cases inner : b.stop < a.stop
          · rw [if_pos inner] at same
            exact finish (inner_round sortedA sortedB first inner) same
          rw [if_neg inner] at same
          by_cases equal : b.stop = a.stop
          · rw [if_pos equal] at same
            exact finish (equal_round sortedA sortedB first equal) same
          · rw [if_neg equal] at same
            exact finish (outer_round sortedA sortedB first (by omega) (by omega)) same
        have next : ∀ z ∈ lt, z.stop < max x.start y.start := fun z member =>
          emitted z member x rfl y rfl
        by_cases less : x.start < y.start
        · refine step enough sorted1 sorted2 less.le (fun z member => ?_) _ ?_
          · have bound := next z member
            omega
          · conv_lhs => unfold intersectLoop
            rw [if_pos less]
        · have swapped := @step y x ys xs (by omega) sorted2 sorted1
            (by omega) (fun z member => by have bound := next z member; omega)
            (intersectLoop (fuel + 1) (x :: xs) (y :: ys) lt)
            (by conv_lhs => unfold intersectLoop
                rw [if_neg less])
          exact ⟨swapped.1, fun t => (swapped.2 t).trans (or_congr_right and_comm)⟩

theorem intersect_spec (sorted1 : Chronological list1) (sorted2 : Chronological list2) :
    Chronological (intersect list1 list2) ∧
      ∀ t, Times (intersect list1 list2) t ↔ Times list1 t ∧ Times list2 t := by
  obtain ⟨sorted, times⟩ := intersectLoop_spec (Nat.le_refl _) sorted1 sorted2 Chronological.nil
    (emitted_nil list1 list2)
  refine ⟨sorted, fun t => (times t).trans ?_⟩
  simp only [times_nil, false_or]

/-! ## Lists that are not disjoint -/

/-- An interval of one list starts within an interval of the other one. -/
def Overlap (list1 list2 : List Interval) : Prop :=
  ∃ i ∈ list1, ∃ j ∈ list2, (i.start ≤ j.start ∧ j.start ≤ i.stop) ∨ (j.start ≤ i.start ∧ i.start ≤ j.stop)

theorem Overlap.symm (overlap : Overlap list1 list2) : Overlap list2 list1 := by
  obtain ⟨i, first, j, second, within⟩ := overlap
  exact ⟨j, second, i, first, within.symm⟩

theorem overlap_of_times (first : Times list1 t) (second : Times list2 t) :
    Overlap list1 list2 := by
  obtain ⟨i, one, low1, high1⟩ := first
  obtain ⟨j, two, low2, high2⟩ := second
  exact ⟨i, one, j, two, by omega⟩

theorem notDisjointLoop_succ (fuel : Nat) (x y : Interval) (xs ys : List Interval) :
    notDisjointLoop (fuel + 1) (x :: xs) (y :: ys) =
      if x.start < y.start then
        if y.start > x.stop then notDisjointLoop fuel xs (y :: ys) else true
      else if x.start > y.stop then notDisjointLoop fuel ys (x :: xs) else true := by
  conv_lhs => unfold notDisjointLoop
  by_cases less : x.start < y.start
  · rw [if_pos less, if_pos less]
  · rw [if_neg less, if_neg less]

/-- Lists with a common time are found not to be disjoint. -/
theorem notDisjointLoop_times (enough : list1.length + list2.length ≤ fuel)
    (sorted1 : Chronological list1) (sorted2 : Chronological list2) (first : Times list1 t)
    (second : Times list2 t) : notDisjointLoop fuel list1 list2 = true := by
  induction fuel generalizing list1 list2 with
  | zero =>
    have none : list1 = [] := List.length_eq_zero_iff.mp (by omega)
    rw [none] at first
    exact absurd first (times_nil t)
  | succ fuel ih =>
    cases list1 with
    | nil => exact absurd first (times_nil t)
    | cons x xs =>
      cases list2 with
      | nil => exact absurd second (times_nil t)
      | cons y ys =>
        simp only [length_cons] at enough
        rw [notDisjointLoop_succ]
        split
        · split
          next apart =>
              have later := ((apart_times sorted2 apart t).mp ⟨first, second⟩).1
              exact ih (by simp only [length_cons]; omega) sorted1.tail sorted2 later second
          · rfl
        · split
          next apart =>
              have later := ((apart_times sorted1 apart t).mp ⟨second, first⟩).1
              exact ih (by simp only [length_cons]; omega) sorted2.tail sorted1 later first
          · rfl

theorem notDisjoint_of_times (sorted1 : Chronological list1) (sorted2 : Chronological list2)
    (first : Times list1 t) (second : Times list2 t) : notDisjoint list1 list2 = true :=
  notDisjointLoop_times (Nat.le_refl _) sorted1 sorted2 first second

theorem overlap_of_loop (found : notDisjointLoop fuel list1 list2 = true) :
    Overlap list1 list2 := by
  induction fuel generalizing list1 list2 with
  | zero => simp [notDisjointLoop] at found
  | succ fuel ih =>
    have wider : ∀ {x : Interval} {xs ys : List Interval}, Overlap xs ys → Overlap (x :: xs) ys := by
      rintro x xs ys ⟨i, first, j, second, within⟩
      exact ⟨i, List.mem_cons_of_mem x first, j, second, within⟩
    cases list1 with
    | nil => simp [notDisjointLoop] at found
    | cons x xs =>
      cases list2 with
      | nil => simp [notDisjointLoop] at found
      | cons y ys =>
        rw [notDisjointLoop_succ] at found
        split at found
        next less =>
            split at found
            · exact wider (ih found)
            next meet => exact ⟨x, mem_cons_self, y, mem_cons_self, by omega⟩
        next less =>
            split at found
            · exact (wider (ih found)).symm
            next meet => exact ⟨x, mem_cons_self, y, mem_cons_self, by omega⟩

theorem overlap_of_notDisjoint (found : notDisjoint list1 list2 = true) : Overlap list1 list2 :=
  overlap_of_loop found

end AckFormal.Ego.Interv
