import Mathlib.Data.List.Basic

/-!
# Loops that may fail

`List.foldlM` in `Option` is a loop over a list whose body may give up.
-/

namespace AckFormal.Lib

variable {α σ : Type*} {step : σ → α → Option σ} {list : List α}

/-- A property of the part of the list that has been dealt with and the state is true
at the end of the loop if it is true at the start and every turn keeps it. -/
theorem foldlM_invariant (inv : List α → σ → Prop) {initial final : σ} (start : inv [] initial)
    (keep : ∀ {done : List α} {a : α} {s s' : σ}, a ∈ list → inv done s → step s a = some s' →
      inv (done ++ [a]) s')
    (ran : list.foldlM step initial = some final) : inv list final := by
  have general : ∀ (rest done : List α) (s : σ), (∀ a ∈ rest, a ∈ list) → inv done s →
      rest.foldlM step s = some final → inv (done ++ rest) final := by
    intro rest
    induction rest with
    | nil =>
      intro done s _ now ran
      cases ran
      simpa using now
    | cons a rest ih =>
      intro done s members now ran
      obtain ⟨next, stepped, later⟩ := Option.bind_eq_some_iff.mp ran
      have kept := keep (members a List.mem_cons_self) now stepped
      have final := ih (done ++ [a]) next
        (fun b member => members b (List.mem_cons_of_mem a member)) kept later
      simpa using final
  simpa using general list [] initial (fun _ member => member) start ran

/-- A loop whose body never gives up under the invariant does not give up. -/
theorem foldlM_isSome (inv : List α → σ → Prop) {initial : σ} (start : inv [] initial)
    (keep : ∀ {done : List α} {a : α} {s : σ}, a ∈ list → inv done s →
      ∃ s', step s a = some s' ∧ inv (done ++ [a]) s') :
    ∃ final, list.foldlM step initial = some final := by
  have general : ∀ (rest done : List α) (s : σ), (∀ a ∈ rest, a ∈ list) → inv done s →
      ∃ final, rest.foldlM step s = some final := by
    intro rest
    induction rest with
    | nil =>
      intro done s _ _
      exact ⟨s, rfl⟩
    | cons a rest ih =>
      intro done s members now
      obtain ⟨next, stepped, kept⟩ := keep (members a List.mem_cons_self) now
      obtain ⟨final, later⟩ := ih (done ++ [a]) next
        (fun b member => members b (List.mem_cons_of_mem a member)) kept
      refine ⟨final, ?_⟩
      rw [List.foldlM_cons, stepped]
      exact later
  exact general list [] initial (fun _ member => member) start

theorem foldlM_congr {step' : σ → α → Option σ}
    (same : ∀ a ∈ list, ∀ s, step s a = step' s a) (initial : σ) :
    list.foldlM step initial = list.foldlM step' initial := by
  induction list generalizing initial with
  | nil => rfl
  | cons a rest ih =>
    rw [List.foldlM_cons, List.foldlM_cons, same a List.mem_cons_self]
    congr 1
    funext s
    exact ih (fun b member => same b (List.mem_cons_of_mem a member)) s

/-- Two loops over a list whose states stay alike: every turn of the one belongs to a turn of the
other, and what a turn leaves has only grown at the end. -/
theorem foldlM_pair {step' : σ → α → Option σ} {s s' final final' : σ}
    (ran : list.foldlM step s = some final) (ran' : list.foldlM step' s' = some final')
    (alike grown : σ → σ → Prop)
    (refl : ∀ s, grown s s) (trans : ∀ {s t u}, grown s t → grown t u → grown s u)
    (grows : ∀ {a s t}, a ∈ list → step s a = some t ∨ step' s a = some t → grown s t)
    (keep : ∀ {a s s' t t'}, a ∈ list → alike s s' → step s a = some t → step' s' a = some t' →
      alike t t') (start : alike s s') :
    alike final final' ∧ grown s final ∧ grown s' final' ∧
      ∀ a ∈ list, ∃ m m' t t', alike m m' ∧ step m a = some t ∧ step' m' a = some t' ∧
        grown t final ∧ grown t' final' := by
  induction list generalizing s s' with
  | nil =>
    cases ran
    cases ran'
    exact ⟨start, refl _, refl _, fun _ member => nomatch member⟩
  | cons a rest ih =>
    obtain ⟨t, stepped, later⟩ := Option.bind_eq_some_iff.mp ran
    obtain ⟨t', stepped', later'⟩ := Option.bind_eq_some_iff.mp ran'
    obtain ⟨ends, more, more', each⟩ := ih later later'
      (fun member => grows (List.mem_cons_of_mem a member))
      (fun member => keep (List.mem_cons_of_mem a member))
      (keep List.mem_cons_self start stepped stepped')
    refine ⟨ends, trans (grows List.mem_cons_self (.inl stepped)) more,
      trans (grows List.mem_cons_self (.inr stepped')) more', fun b member => ?_⟩
    rcases List.mem_cons.mp member with rfl | inRest
    · exact ⟨s, s', t, t', start, stepped, stepped', more, more'⟩
    · exact each b inRest

theorem foldl_records {turn : σ → α → σ} {P : σ → Prop} {Q : α → Prop}
    (each : ∀ s a, P (turn s a) ↔ P s ∨ Q a) (list : List α) (s : σ) :
    P (list.foldl turn s) ↔ P s ∨ ∃ a ∈ list, Q a := by
  induction list generalizing s with
  | nil => simp
  | cons a rest ih =>
    rw [List.foldl_cons, ih, each, or_assoc]
    simp

end AckFormal.Lib
