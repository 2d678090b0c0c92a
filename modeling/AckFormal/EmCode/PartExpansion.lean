import AckFormal.EmCode.PartCourse

/-!
# The output and the expansion

A part that is inserted while the output is in sequence is cut off: what is put in it
later is lost.  The output is the expansion of the texts that are cut off so.
-/

namespace AckFormal.EmCode

open Led (Byte)
open Function (update update_of_ne update_self)
open Lib
open List (append_nil mem_append mem_cons_self mem_singleton nil_sublist prefix_rfl)

/-! ## The code does what is done to the texts -/

section Code

variable {buf : Bufsiz} {fuel : Nat} {s : Code} {t : Text} {c : Course} {b : List Nat} {h : Held}

theorem text_prefix (calls : List Call) (t : Text) (k : Option Nat) :
    t.body k <+: (calls.foldl Text.call t).body k := by
  induction calls generalizing t with
  | nil => exact prefix_rfl
  | cons call calls ih =>
    have step : t.body k <+: (t.call call).body k := by
      have added : ∀ item, t.body k <+: (t.add item).body k := by
        intro item
        by_cases here : k = t.open_.head?
        · subst here
          rw [Text.add_here]
          exact List.prefix_append _ _
        · rw [Text.add_others t item here]
      cases call with
      | put a => exact added _
      | insertpart n => exact added _
      | beginpart n => exact prefix_rfl
      | endpart n => exact prefix_rfl
    exact step.trans (ih (t.call call))

theorem Follows.proper {call : Call} {calls : List Call} (follows : Follows t c b h)
    (proper : ∀ n, .insert n ∉ ((call :: calls).foldl Text.call t).part n) (n : Nat)
    (same : call = .insertpart n) (now : h.sequential = true) : h.levels.head? ≠ some n := by
  subst same
  intro first
  rw [follows.levels, if_pos now, append_nil] at first
  apply proper n
  obtain ⟨more, whole⟩ := text_prefix calls (t.call (.insertpart n)) (some n)
  have member : Item.insert n ∈ (t.call (.insertpart n)).body (some n) := by
    unfold Text.call
    rw [← first, Text.add_here]
    exact List.mem_append_right _ mem_cons_self
  rw [Text.part, List.foldl_cons, ← whole]
  exact List.mem_append_left _ member

/-- The code does what is held to happen, over all calls. -/
theorem Matches.run {calls : List Call} (here : Matches buf s h) (fuel : Nat)
    (follows : Follows t c b h)
    (nested : Nested t.open_ calls) (proper : ∀ n, .insert n ∉ (calls.foldl Text.call t).part n) :
    (∀ h', calls.foldlM Held.call h = some h' →
      ∃ s', calls.foldlM (Code.call buf fuel) s = some s' ∧ Matches buf s' h') ∧
    (calls.foldlM Held.call h = none → calls.foldlM (Code.call buf fuel) s = none) := by
  induction calls generalizing s t c b h with
  | nil =>
    refine ⟨?_, ?_⟩
    · rintro h' ran
      cases ran
      exact ⟨s, rfl, here⟩
    · intro ran
      cases ran
  | cons call calls ih =>
    obtain ⟨nested', ends⟩ := nested_call nested
    have inside := follows.proper proper
    rw [List.foldlM_cons, List.foldlM_cons]
    cases step : h.call call with
    | some h₁ =>
      obtain ⟨s₁, step', here₁⟩ := here.call_some fuel follows.plain inside step
      rw [step']
      exact ih here₁ (follows.call ends step) nested' proper
    | none =>
      refine ⟨fun h' ran => (Option.some_ne_none h' ran.symm).elim, fun _ => ?_⟩
      cases step' : s.call buf fuel call with
      | none => rfl
      | some s₁ =>
        obtain ⟨n, rfl, now, doomed⟩ := here.call_none follows.plain inside step step'
        rw [follows.levels, if_pos now, append_nil] at doomed
        exact doomed.never nested

end Code

/-! ## Where the parts are cut off -/

section Cut

variable {Y : Nat → List Byte} {cut : Nat → Option Nat} {t : Text} {c : Course} {i b : List Nat}
  {h h' : Held}

/-- Where every part is cut off: at what it is when it is inserted, if the output is still
in sequence and the part is there. -/
theorem exists_cut {calls : List Call} (once : (inserted calls).Nodup) :
    ∃ cut : Nat → Option Nat, ∀ before n after, calls = before ++ .insertpart n :: after →
      cut n = if (course before).sequential = true ∧ n ∈ (course before).begun then
        some ((text before).part n).length else none := by
  have unique : ∀ before n after before' after',
      calls = before ++ .insertpart n :: after → calls = before' ++ .insertpart n :: after' →
      before = before' := by
    intro before n after before' after' split split'
    have whole := split.symm.trans split'
    -- a longer beginning would insert the part twice
    have twice : ∀ first more second rest : List Call,
        calls = first ++ .insertpart n :: (more ++ .insertpart n :: rest) → False := by
      intro first more second rest split
      rw [split] at once
      have parts : inserted (first ++ .insertpart n :: (more ++ .insertpart n :: rest)) =
          inserted first ++ n :: (inserted more ++ n :: inserted rest) := by
        simp [inserted]
      rw [parts] at once
      have tail := (List.nodup_append.mp once).2.1
      exact (List.nodup_cons.mp tail).1 (List.mem_append_right _ mem_cons_self)
    rcases List.append_eq_append_iff.mp whole with ⟨more, longer, rest⟩ | ⟨more, longer, rest⟩
    · cases more with
      | nil => rw [longer, append_nil]
      | cons call more =>
        cases rest
        exact (twice before more [] after' split).elim
    · cases more with
      | nil => rw [longer, append_nil]
      | cons call more =>
        cases rest
        exact (twice before' more [] after split').elim
  classical
  refine ⟨fun n => if here : ∃ p : List Call × List Call, calls = p.1 ++ .insertpart n :: p.2 then
      if (course here.choose.1).sequential = true ∧ n ∈ (course here.choose.1).begun then
        some ((text here.choose.1).part n).length else none
    else none, ?_⟩
  intro before n after split
  have here : ∃ p : List Call × List Call, calls = p.1 ++ .insertpart n :: p.2 :=
    ⟨(before, after), split⟩
  dsimp only
  rw [dif_pos here, unique _ n _ before after here.choose_spec split]

structure Resolves (Y : Nat → List Byte) (cut : Nat → Option Nat) (t : Text) (i b : List Nat)
    (h : Held) : Prop where
  main : h.written ++ (if h.sequential then [] else flat Y (h.held 0)) = flat Y (t.body none)
  parts : ∀ n ∈ b, flat Y (h.held n) =
    flat Y ((t.part n).drop (if n ∈ i then (cut n).getD 0 else 0))
  bound : ∀ n, n ∈ i → (cut n).getD 0 ≤ (t.part n).length
  uncut : ∀ k j, .insert j ∈ h.held k → cut j = none
  sub : ∀ n ∈ b, (inserts (h.held n)).Sublist (inserts (t.part n))
  subMain : h.sequential = false → (inserts (h.held 0)).Sublist (inserts (t.body none))

theorem resolves_start : Resolves Y cut Text.start [] [] Held.start where
  main := rfl
  parts := by simp
  bound := by simp
  uncut := by simp [Held.start]
  sub := by simp
  subMain := by simp [Held.start]

section Call

variable {item : Item Byte Nat} {new : List (Item Byte Nat)} {n : Nat}

section

variable (resolves : Resolves Y cut t i b h)
include resolves

theorem Resolves.direct (now : h.sequential = true)
    (top : t.open_ = []) {bytes : List Byte} (same : flat Y [item] = bytes) :
    Resolves Y cut (t.add item) i b { h with written := h.written ++ bytes } := by
  obtain ⟨here, others⟩ := t.add_main item (by rw [top]; rfl)
  have main := resolves.main
  rw [if_pos now, append_nil] at main
  exact
    { main := by
        rw [if_pos now, append_nil, here, flat_append, same, main]
      parts := by
        intro n begun
        rw [others]
        exact resolves.parts n begun
      bound := by
        intro n member
        rw [others]
        exact resolves.bound n member
      uncut := resolves.uncut
      sub := by
        intro n begun
        rw [others]
        exact resolves.sub n begun
      subMain := by
        intro later
        rw [now] at later
        cases later }

/-- An item is put behind the part that is being defined. -/
theorem Resolves.append (follows : Follows t c b h) {m : Nat}
    {rest : List Nat} (levels : h.levels = m :: rest) (same : flat Y new = flat Y [item])
    (uncut : ∀ j, .insert j ∈ new → cut j = none)
    (sub : (inserts new).Sublist (inserts [item])) (stored : Nat) :
    Resolves Y cut (t.add item) i b { h with
      held := update h.held m (h.held m ++ new), stored := stored } := by
  have uncut' : ∀ k j, .insert j ∈ update h.held m (h.held m ++ new) k → cut j = none := by
    intro k j member
    by_cases this : k = m
    · subst this
      rw [update_self] at member
      rcases mem_append.mp member with old | added
      · exact resolves.uncut k j old
      · exact uncut j added
    · rw [update_of_ne this] at member
      exact resolves.uncut k j member
  rcases follows.position levels with ⟨top, later, rfl⟩ | ⟨first, begunM⟩
  · obtain ⟨here, others⟩ := t.add_main item (by rw [top]; rfl)
    have notZero : ∀ n ∈ b, n ≠ 0 := by
      rintro n begun rfl
      exact follows.ids later begun
    have main := resolves.main
    have subMain := resolves.subMain later
    rw [later] at main
    exact
      { main := by
          dsimp only
          rw [later, here, flat_append, ← main, update_self]
          simp [same]
        parts := by
          intro n begun
          dsimp only
          rw [others, update_of_ne (notZero n begun)]
          exact resolves.parts n begun
        bound := by
          intro n member
          rw [others]
          exact resolves.bound n member
        uncut := uncut'
        sub := by
          intro n begun
          dsimp only
          rw [others, update_of_ne (notZero n begun)]
          exact resolves.sub n begun
        subMain := by
          intro _
          dsimp only
          rw [here, update_self, inserts_append, inserts_append]
          exact subMain.append sub }
  · obtain ⟨here, otherMain, others⟩ := t.add_part item first
    have notZero : h.sequential = false → 0 ≠ m := by
      rintro later rfl
      exact follows.ids later begunM
    exact
      { main := by
          dsimp only
          rw [otherMain, ← resolves.main]
          cases sequential : h.sequential with
          | true => rfl
          | false =>
            rw [update_of_ne (notZero sequential)]
        parts := by
          intro n begun
          dsimp only
          by_cases this : n = m
          · subst this
            have low : (if n ∈ i then (cut n).getD 0 else 0) ≤ (t.part n).length := by
              split
              · rename_i member
                exact resolves.bound n member
              · exact Nat.zero_le _
            rw [here, update_self, List.drop_append_of_le_length low, flat_append,
              flat_append, resolves.parts n begun, same]
          · rw [others n this, update_of_ne this]
            exact resolves.parts n begun
        bound := by
          intro n member
          have old := resolves.bound n member
          by_cases this : n = m
          · subst this
            rw [here, List.length_append]
            omega
          · rw [others n this]
            exact old
        uncut := uncut'
        sub := by
          intro n begun
          dsimp only
          by_cases this : n = m
          · subst this
            rw [here, update_self, inserts_append, inserts_append]
            exact (resolves.sub n begun).append sub
          · rw [others n this, update_of_ne this]
            exact resolves.sub n begun
        subMain := by
          intro later
          dsimp only
          rw [otherMain, update_of_ne (notZero later)]
          exact resolves.subMain later }

theorem Resolves.kept (whole : cut n = none) :
    Resolves Y cut t (i ++ [n]) b h where
  main := resolves.main
  parts := by
    intro k begun
    have same : (if k ∈ i ++ [n] then (cut k).getD 0 else 0) =
        if k ∈ i then (cut k).getD 0 else 0 := by
      by_cases this : k = n
      · subst this
        rw [whole]
        simp
      · simp [this]
    rw [same]
    exact resolves.parts k begun
  bound := by
    intro k member
    rcases mem_append.mp member with old | new
    · exact resolves.bound k old
    · rw [mem_singleton.mp new, whole]
      exact Nat.zero_le _
  uncut := resolves.uncut
  sub := resolves.sub
  subMain := resolves.subMain

/-- A part that has been put out is empty, and is cut off at its length. -/
theorem Resolves.moved (now : h.sequential = true)
    (here : cut n = some (t.part n).length) :
    Resolves Y cut t (i ++ [n]) b { h with held := update h.held n [] } where
  main := by
    have main := resolves.main
    rw [if_pos now] at main
    rw [if_pos now]
    exact main
  parts := by
    intro k begun
    dsimp only
    by_cases this : k = n
    · subst this
      rw [update_self, if_pos (List.mem_append_right _ mem_cons_self), here,
        Option.getD_some, List.drop_length]
    · have same : (if k ∈ i ++ [n] then (cut k).getD 0 else 0) =
          if k ∈ i then (cut k).getD 0 else 0 := by
        simp [this]
      rw [update_of_ne this, same]
      exact resolves.parts k begun
  bound := by
    intro k member
    rcases mem_append.mp member with old | new
    · exact resolves.bound k old
    · rw [mem_singleton.mp new, here]
      exact Nat.le_refl _
  uncut := by
    intro k j member
    dsimp only at member
    by_cases this : k = n
    · subst this
      rw [update_self] at member
      cases member
    · rw [update_of_ne this] at member
      exact resolves.uncut k j member
  sub := by
    intro k begun
    dsimp only
    by_cases this : k = n
    · subst this
      rw [update_self]
      exact nil_sublist _
    · rw [update_of_ne this]
      exact resolves.sub k begun
  subMain := by
    intro later
    rw [now] at later
    cases later

end

section

variable (resolves : Resolves Y cut t i b h) (follows : Follows t c b h)
include resolves follows

theorem Resolves.put {a : Byte} (ran : h.call (.put a) = some h') :
    Resolves Y cut (t.call (.put a)) i b h' := by
  unfold Held.call at ran
  dsimp only at ran
  cases levels : h.levels with
  | nil =>
    rw [Held.put_main levels] at ran
    cases ran
    obtain ⟨now, top⟩ := follows.sequential_of_levels levels
    exact resolves.direct now top rfl
  | cons m rest =>
    rw [Held.put_part levels] at ran
    split at ran
    · cases ran
      exact resolves.append follows levels rfl (by simp) (List.Sublist.refl _) _
    · cases ran

/-- A part is begun. -/
theorem Resolves.beginpart (ran : h.call (.beginpart n) = some h') :
    Resolves Y cut (t.call (.beginpart n)) i (b ++ [n]) h' := by
  unfold Held.call at ran
  dsimp only at ran
  split at ran
  · cases ran
  · rename_i absent
    cases ran
    have notBegun : n ∉ b := fun begun => absent ((follows.table n).mpr (Or.inl begun))
    exact
      { main := resolves.main
        parts := by
          intro k begun
          rcases mem_append.mp begun with old | new
          · exact resolves.parts k old
          · have same : k = n := mem_singleton.mp new
            subst same
            have none : (t.call (.beginpart k)).part k = [] := follows.absent k notBegun
            rw [follows.outside k absent, none, List.drop_nil]
        bound := resolves.bound
        uncut := resolves.uncut
        sub := by
          intro k begun
          rcases mem_append.mp begun with old | new
          · exact resolves.sub k old
          · have same : k = n := mem_singleton.mp new
            subst same
            rw [follows.outside k absent]
            exact nil_sublist _
        subMain := resolves.subMain }

omit follows in
theorem Resolves.endpart (ran : h.call (.endpart n) = some h') :
    Resolves Y cut (t.call (.endpart n)) i b h' := by
  unfold Held.call at ran
  dsimp only at ran
  split at ran
  · split at ran
    · cases ran
      exact { resolves with }
    · cases ran
  · cases ran

/-- A part that is there is put out where it is inserted. -/
theorem Resolves.insert_listed {h₁ : Held} (now : h.sequential = true) (begun : n ∈ b)
    (fresh : n ∉ i) (other : h.levels.head? ≠ some n) (cutHere : cut n = some (t.part n).length)
    (solved : Y n = flat Y (t.part n)) (moved : (h.bytes n).foldlM Held.put h = some h₁) :
    Resolves Y cut (t.add (.insert n)) (i ++ [n]) b { h₁ with held := update h₁.held n [] } := by
  have bytes : flat Y [Item.insert n] = h.bytes n := by
    have held := resolves.parts n begun
    rw [if_neg fresh, List.drop_zero] at held
    rw [flat_insert, flat_nil, append_nil, solved, ← held, Held.bytes]
    apply flat_congr
    intro j member
    rw [← mem_inserts, follows.plain now n] at member
    cases member
  have untouched : (t.add (.insert n)).part n = t.part n := by
    apply Text.add_others
    intro first
    apply other
    rw [follows.levels, if_pos now, append_nil]
    exact first.symm
  obtain ⟨_, _, sequential⟩ := Held.putAll_control moved
  apply Resolves.moved _ (sequential.trans now) (by rw [untouched]; exact cutHere)
  cases levels : h.levels with
  | nil =>
    rw [Held.put_all_main _ levels] at moved
    cases moved
    obtain ⟨_, top⟩ := follows.sequential_of_levels levels
    exact resolves.direct now top bytes
  | cons m rest =>
    rw [Held.put_all_part _ levels follows.room] at moved
    split at moved
    · cases moved
      refine resolves.append follows levels ?_ ?_ ?_ _
      · rw [flat_texts, bytes]
      · simp
      · rw [inserts_texts]
        exact nil_sublist _
    · cases moved

/-- At the first part that is not there the output stops being in sequence. -/
theorem Resolves.stop (now : h.sequential = true) (free : 0 ∉ h.table) :
    Resolves Y cut t i b { h with sequential := false, table := 0 :: h.table, levels := [0] } where
  main := by
    have main := resolves.main
    rw [if_pos now] at main
    rw [follows.outside 0 free]
    exact main
  parts := resolves.parts
  bound := resolves.bound
  uncut := resolves.uncut
  sub := resolves.sub
  subMain := by
    intro _
    rw [follows.outside 0 free]
    exact nil_sublist _

/-- A part is inserted. -/
theorem Resolves.insertpart (proper : h.sequential = true → h.levels.head? ≠ some n)
    (fresh : n ∉ i)
    (here : cut n = if c.sequential = true ∧ n ∈ c.begun then some (t.part n).length else none)
    (solved : cut n = some (t.part n).length → Y n = flat Y (t.part n))
    (ran : h.call (.insertpart n) = some h') :
    Resolves Y cut (t.add (.insert n)) (i ++ [n]) b h' := by
  unfold Held.call at ran
  dsimp only at ran
  split at ran
  · rename_i now
    have known : n ∈ c.begun ↔ n ∈ h.table := by
      rw [follows.begun, follows.table, now]
      simp
    split at ran
    · rename_i listed
      rw [if_pos ⟨follows.sequential.trans now, known.mpr listed⟩] at here
      obtain ⟨h₁, moved, rfl⟩ := Option.map_eq_some_iff.mp ran
      exact resolves.insert_listed follows now ((follows.begun n).mp (known.mpr listed)) fresh
        (proper now) here (solved here) moved
    · rename_i absent
      rw [if_neg fun both => absent (known.mp both.2)] at here
      apply Resolves.kept _ here
      split at ran
      · rename_i free
        cases ran
        exact (resolves.stop follows now free.2).append (follows.stop now free.1 free.2) rfl rfl
          (by simp [here]) (List.Sublist.refl _) _
      · cases ran
  · rename_i later
    rw [if_neg fun both => later (follows.sequential.symm.trans both.1)] at here
    apply Resolves.kept _ here
    split at ran
    · rename_i m rest levels
      cases ran
      exact resolves.append follows levels rfl (by simp [here]) (List.Sublist.refl _) _
    · cases ran

end

/-- One call: what is held still expands to what is left of the texts. -/
theorem Resolves.call {call : Call} (resolves : Resolves Y cut t i b h) (follows : Follows t c b h)
    (proper : ∀ n, call = .insertpart n → h.sequential = true → h.levels.head? ≠ some n)
    (fresh : ∀ n, call = .insertpart n → n ∉ i)
    (here : ∀ n, call = .insertpart n → cut n =
      if c.sequential = true ∧ n ∈ c.begun then some (t.part n).length else none)
    (solved : ∀ n, call = .insertpart n → cut n = some (t.part n).length →
      Y n = flat Y (t.part n))
    (ran : h.call call = some h') :
    Resolves Y cut (t.call call) (i ++ inserted [call]) (b ++ begun [call]) h' := by
  cases call with
  | put a =>
    have sameI : i ++ inserted [.put a] = i := append_nil i
    have sameB : b ++ begun [.put a] = b := append_nil b
    rw [sameI, sameB]
    exact resolves.put follows ran
  | beginpart n =>
    have sameI : i ++ inserted [.beginpart n] = i := append_nil i
    rw [sameI]
    exact resolves.beginpart follows ran
  | endpart n =>
    have sameI : i ++ inserted [.endpart n] = i := append_nil i
    have sameB : b ++ begun [.endpart n] = b := append_nil b
    rw [sameI, sameB]
    exact resolves.endpart ran
  | insertpart n =>
    have sameB : b ++ begun [.insertpart n] = b := append_nil b
    rw [sameB]
    exact resolves.insertpart follows (proper n rfl) (fresh n rfl) (here n rfl) (solved n rfl) ran

end Call

end Cut

end AckFormal.EmCode
