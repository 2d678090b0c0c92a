import Mathlib.Data.List.Basic

/-!
# Sweeps until nothing changes

A sweep runs a list of steps over a state; each step tells whether it changed
something.  `settle` repeats the sweep until one changes nothing, the loop
`do changed = false; ... while (changed)`.  What the steps must do for the loop
to end is that every change they report raises a rank that is bounded.
-/

namespace AckFormal.Lib.Settle

variable {σ : Type*}

def sweep : List (σ → σ × Bool) → σ → Bool → σ × Bool
  | [], s, changed => (s, changed)
  | step :: steps, s, changed => sweep steps (step s).1 (changed || (step s).2)

def settle (steps : List (σ → σ × Bool)) : Nat → σ → Option σ
  | 0, _ => none
  | fuel + 1, s =>
    let swept := sweep steps s false
    if swept.2 then settle steps fuel swept.1 else some swept.1

def Honest (step : σ → σ × Bool) : Prop :=
  ∀ s, (step s).2 = false → (step s).1 = s

/-- A step that keeps `P` and never lowers the rank, and raises it when it reports a change. -/
structure Progress (P : σ → Prop) (rank : σ → Nat) (step : σ → σ × Bool) : Prop where
  keeps : ∀ s, P s → P (step s).1
  mono : ∀ s, P s → rank s ≤ rank (step s).1
  raises : ∀ s, P s → (step s).2 = true → rank s < rank (step s).1

theorem sweep_append (first second : List (σ → σ × Bool)) (s : σ) (changed : Bool) :
    sweep (first ++ second) s changed =
      sweep second (sweep first s changed).1 (sweep first s changed).2 := by
  induction first generalizing s changed with
  | nil => rfl
  | cons step first ih => exact ih (step s).1 _

theorem sweep_changed (steps : List (σ → σ × Bool)) (s : σ) : (sweep steps s true).2 = true := by
  induction steps generalizing s with
  | nil => rfl
  | cons step steps ih => exact ih (step s).1

theorem sweep_state (steps : List (σ → σ × Bool)) (s : σ) (changed : Bool) :
    (sweep steps s changed).1 = (sweep steps s false).1 := by
  induction steps generalizing s changed with
  | nil => rfl
  | cons step steps ih => exact (ih _ _).trans (ih _ _).symm

/-! ### Honest steps -/

theorem Honest.conditional {condition : σ → Prop} [DecidablePred condition] {update : σ → σ} :
    Honest (fun s => if condition s then (update s, true) else (s, false)) := by
  intro s quiet
  by_cases now : condition s
  · simp only [if_pos now] at quiet
    exact nomatch quiet
  · simp only [if_neg now]

variable {steps : List (σ → σ × Bool)}

/-- A sweep without a change leaves the state, and every step agrees. -/
theorem sweep_quiet (honest : ∀ step ∈ steps, Honest step) (s : σ)
    (quiet : (sweep steps s false).2 = false) :
    (sweep steps s false).1 = s ∧ ∀ step ∈ steps, (step s).2 = false := by
  induction steps with
  | nil => exact ⟨rfl, nofun⟩
  | cons step steps ih =>
    rw [sweep, Bool.false_or] at quiet ⊢
    cases still : (step s).2 with
    | true =>
      rw [still, sweep_changed] at quiet
      exact nomatch quiet
    | false =>
      have same := honest step List.mem_cons_self s still
      rw [still, same] at quiet
      rw [same]
      obtain ⟨kept, others⟩ :=
        ih (fun other member => honest other (List.mem_cons_of_mem _ member)) quiet
      refine ⟨kept, fun other member => ?_⟩
      rcases List.mem_cons.mp member with rfl | inTail
      · exact still
      · exact others other inTail

theorem Honest.sweep (honest : ∀ step ∈ steps, Honest step) :
    Honest (fun s => sweep steps s false) :=
  fun s quiet => (sweep_quiet honest s quiet).1

/-! ### Progress -/

section Progress

variable {P : σ → Prop} {rank : σ → Nat}

theorem Progress.conditional {condition : σ → Prop} [DecidablePred condition] {update : σ → σ}
    (keeps : ∀ s, P s → condition s → P (update s))
    (raises : ∀ s, P s → condition s → rank s < rank (update s)) :
    Progress P rank (fun s => if condition s then (update s, true) else (s, false)) where
  keeps s holds := by
    split
    next now => exact keeps s holds now
    next => exact holds
  mono s holds := by
    split
    next now => exact Nat.le_of_lt (raises s holds now)
    next => exact Nat.le_refl _
  raises s holds changed := by
    split at changed
    next now =>
      rw [if_pos now]
      exact raises s holds now
    next => exact nomatch changed

theorem sweep_keeps (keeps : ∀ step ∈ steps, ∀ s, P s → P (step s).1) (s : σ) (changed : Bool)
    (holds : P s) : P (sweep steps s changed).1 := by
  induction steps generalizing s changed with
  | nil => exact holds
  | cons step steps ih =>
    exact ih (fun other member => keeps other (List.mem_cons_of_mem _ member)) _ _
      (keeps step List.mem_cons_self s holds)

section

variable (progress : ∀ step ∈ steps, Progress P rank step)
include progress

theorem sweep_mono (s : σ) (changed : Bool)
    (holds : P s) : rank s ≤ rank (sweep steps s changed).1 := by
  induction steps generalizing s changed with
  | nil => exact Nat.le_refl _
  | cons step steps ih =>
    have first := progress step List.mem_cons_self
    exact Nat.le_trans (first.mono s holds)
      (ih (fun other member => progress other (List.mem_cons_of_mem _ member)) _ _
        (first.keeps s holds))

theorem sweep_raises (s : σ) (holds : P s)
    (changed : (sweep steps s false).2 = true) : rank s < rank (sweep steps s false).1 := by
  induction steps generalizing s with
  | nil => exact nomatch changed
  | cons step steps ih =>
    have first := progress step List.mem_cons_self
    have others := fun other member => progress other (List.mem_cons_of_mem step member)
    have kept := first.keeps s holds
    rw [sweep, Bool.false_or] at changed ⊢
    cases flag : (step s).2 with
    | false =>
      rw [flag] at changed
      exact Nat.lt_of_le_of_lt (first.mono s holds) (ih others (step s).1 kept changed)
    | true =>
      exact Nat.lt_of_lt_of_le (first.raises s holds flag) (sweep_mono others _ _ kept)

theorem Progress.sweep :
    Progress P rank (fun s => sweep steps s false) where
  keeps s holds := sweep_keeps (fun step member => (progress step member).keeps) s false holds
  mono s holds := sweep_mono progress s false holds
  raises s holds changed := sweep_raises progress s holds changed

end

section

variable (keeps : ∀ step ∈ steps, ∀ s, P s → P (step s).1) {fuel : Nat} {s t : σ} (holds : P s)
  (ended : settle steps fuel s = some t)
include keeps holds ended

/-- The result of the loop is that of a last sweep, which reported no change. -/
theorem settle_last :
    ∃ last, P last ∧ Settle.sweep steps last false = (t, false) := by
  induction fuel generalizing s with
  | zero => exact nomatch ended
  | succ fuel ih =>
    rw [settle] at ended
    cases flag : (Settle.sweep steps s false).2 with
    | true =>
      rw [flag] at ended
      exact ih (sweep_keeps keeps s false holds) ended
    | false =>
      rw [flag] at ended
      cases ended
      exact ⟨s, holds, Prod.ext rfl flag⟩

theorem settle_keeps : P t := by
  obtain ⟨last, kept, swept⟩ := settle_last keeps holds ended
  have after := sweep_keeps keeps last false kept
  rwa [swept] at after

end

theorem settle_fixed (honest : ∀ step ∈ steps, Honest step) {fuel : Nat} {s t : σ}
    (ended : settle steps fuel s = some t) : ∀ step ∈ steps, (step t).2 = false := by
  obtain ⟨last, -, swept⟩ := settle_last (P := fun _ => True) (fun _ _ _ _ => trivial) trivial ended
  obtain ⟨same, still⟩ := sweep_quiet honest last (congrArg Prod.snd swept)
  rw [swept] at same
  cases same
  exact still

/-- A bounded rank ends the loop, and more fuel changes nothing. -/
theorem settle_ends (progress : ∀ step ∈ steps, Progress P rank step) {bound : Nat}
    (bounded : ∀ s, P s → rank s ≤ bound) (s : σ) (holds : P s) :
    ∃ t, ∃ enough, ∀ fuel ≥ enough, settle steps fuel s = some t := by
  have ending : ∀ room s, P s → bound ≤ rank s + room →
      ∃ t, ∀ fuel, room < fuel → settle steps fuel s = some t := by
    intro room
    induction room with
    | zero =>
      intro s holds full
      have quiet : (Settle.sweep steps s false).2 = false := by
        cases flag : (Settle.sweep steps s false).2 with
        | false => rfl
        | true =>
          have above := sweep_raises progress s holds flag
          have most := bounded _ ((Progress.sweep progress).keeps s holds)
          omega
      refine ⟨(Settle.sweep steps s false).1, fun fuel positive => ?_⟩
      obtain ⟨rest, rfl⟩ := Nat.exists_eq_add_one.mpr positive
      rw [settle, quiet]
      rfl
    | succ room ih =>
      intro s holds space
      cases flag : (Settle.sweep steps s false).2 with
      | true =>
        have above := sweep_raises progress s holds flag
        obtain ⟨t, ends⟩ := ih (Settle.sweep steps s false).1
          ((Progress.sweep progress).keeps s holds) (by omega)
        refine ⟨t, fun fuel more => ?_⟩
        obtain ⟨rest, rfl⟩ := Nat.exists_eq_add_one.mpr (Nat.zero_lt_of_lt more)
        rw [settle, flag]
        exact ends rest (by omega)
      | false =>
        refine ⟨(Settle.sweep steps s false).1, fun fuel more => ?_⟩
        obtain ⟨rest, rfl⟩ := Nat.exists_eq_add_one.mpr (Nat.zero_lt_of_lt more)
        rw [settle, flag]
        rfl
  obtain ⟨t, ends⟩ := ending bound s holds (Nat.le_add_left _ _)
  exact ⟨t, bound + 1, ends⟩

/-! ### Facts -/

theorem countP_lt_countP {Fact : Type*} {universe' : List Fact} {p q : Fact → Bool}
    (mono : ∀ fact ∈ universe', p fact = true → q fact = true) {fact : Fact}
    (member : fact ∈ universe') (before : ¬ p fact = true) (after : q fact = true) :
    universe'.countP p < universe'.countP q := by
  obtain ⟨first, second, rfl⟩ := List.append_of_mem member
  rw [List.forall_mem_append, List.forall_mem_cons] at mono
  rw [List.countP_append, List.countP_append, List.countP_cons_of_neg before,
    List.countP_cons_of_pos after]
  have left := List.countP_mono_left mono.1
  have right := List.countP_mono_left mono.2.2
  omega

/-- A step that loses no fact, and adds one of a finite number of facts when it
reports a change. -/
theorem Progress.facts {Fact : Type*} (universe' : List Fact) (holds : σ → Fact → Prop)
    [∀ s fact, Decidable (holds s fact)] {step : σ → σ × Bool}
    (keeps : ∀ s, P s → P (step s).1)
    (mono : ∀ s, P s → ∀ fact, holds s fact → holds (step s).1 fact)
    (adds : ∀ s, P s → (step s).2 = true →
      ∃ fact ∈ universe', ¬ holds s fact ∧ holds (step s).1 fact) :
    Progress P (fun s => universe'.countP fun fact => holds s fact) step where
  keeps := keeps
  mono s kept := by
    apply List.countP_mono_left
    intro fact _
    rw [decide_eq_true_iff, decide_eq_true_iff]
    exact mono s kept fact
  raises s kept changed := by
    obtain ⟨fact, member, before, after⟩ := adds s kept changed
    refine countP_lt_countP ?_ member ?_ (decide_eq_true after)
    · intro fact _
      rw [decide_eq_true_iff, decide_eq_true_iff]
      exact mono s kept fact
    · rw [decide_eq_true_iff]
      exact before

end Progress

end AckFormal.Lib.Settle
