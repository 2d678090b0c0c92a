import AckFormal.EmCode.PartExpansion

/-!
# When the parts are expanded

The output is the expansion of the main text if and only if the calls are in order.
-/

namespace AckFormal.EmCode

open Led (Byte)
open Lib
open List (append_assoc append_nil mem_cons mem_cons_self)

/-! ## All insertions -/

section Insertions

variable {t : Text} {ids : List Nat} {calls : List Call}

theorem flatMap_update {f : Nat → List Nat} {k n : Nat} (distinct : ids.Nodup) (member : k ∈ ids) :
    (ids.flatMap (Function.update f k (f k ++ [n]))).Perm (ids.flatMap f ++ [n]) := by
  induction ids with
  | nil => cases member
  | cons m ids ih =>
    obtain ⟨outside, distinct'⟩ := List.nodup_cons.mp distinct
    rw [List.flatMap_cons, List.flatMap_cons]
    rcases mem_cons.mp member with rfl | later
    · have same : ids.flatMap (Function.update f k (f k ++ [n])) = ids.flatMap f := by
        apply List.flatMap_congr
        intro i inside
        rw [Function.update_of_ne]
        rintro rfl
        exact outside inside
      rw [Function.update_self, same, append_assoc, append_assoc]
      exact List.perm_append_comm.append_left _
    · have other : m ≠ k := by
        rintro rfl
        exact outside later
      rw [Function.update_of_ne other, append_assoc]
      exact (ih distinct' later).append_left _

def Text.insertions (t : Text) (ids : List Nat) : List Nat :=
  inserts (t.body none) ++ ids.flatMap fun n => inserts (t.part n)

/-- One more item, one more insertion. -/
theorem Text.add_insertions (t : Text) {ids : List Nat} (distinct : ids.Nodup)
    (inside : ∀ n ∈ t.open_, n ∈ ids) (item : Item Byte Nat) :
    ((t.add item).insertions ids).Perm (t.insertions ids ++ inserts [item]) := by
  unfold Text.insertions
  cases first : t.open_.head? with
  | none =>
    obtain ⟨here, others⟩ := t.add_main item first
    simp only [here, others, inserts_append, append_assoc]
    exact List.perm_append_comm.append_left _
  | some k =>
    obtain ⟨here, main, others⟩ := t.add_part item first
    rw [main, append_assoc]
    apply List.Perm.append_left
    cases item with
    | text a =>
      have same : (fun n => inserts ((t.add (.text a)).part n)) = fun n => inserts (t.part n) := by
        funext n
        by_cases this : n = k
        · subst this
          rw [here, inserts_append]
          exact append_nil _
        · rw [others n this]
      rw [same]
      exact List.Perm.of_eq (append_nil _).symm
    | insert j =>
      have same : (fun n => inserts ((t.add (.insert j)).part n)) =
          Function.update (fun n => inserts (t.part n)) k (inserts (t.part k) ++ [j]) := by
        funext n
        by_cases this : n = k
        · subst this
          rw [here, inserts_append, Function.update_self]
          rfl
        · rw [others n this, Function.update_of_ne this]
      rw [same]
      exact flatMap_update distinct (inside k (List.mem_of_head? first))

theorem inserted_cons (call : Call) (calls : List Call) :
    inserted (call :: calls) = inserted [call] ++ inserted calls := by
  cases call <;> rfl

/-- The insertions in all parts are those of the calls. -/
theorem Text.run_insertions (t : Text) (calls : List Call) (distinct : ids.Nodup)
    (inside : ∀ n ∈ t.open_, n ∈ ids)
    (later : ∀ n ∈ begun calls, n ∈ ids) :
    ((calls.foldl Text.call t).insertions ids).Perm (t.insertions ids ++ inserted calls) := by
  induction calls generalizing t with
  | nil => exact List.Perm.of_eq (append_nil _).symm
  | cons call calls ih =>
    rw [List.foldl_cons, inserted_cons, ← append_assoc]
    have more : ∀ n ∈ begun calls, n ∈ ids := by
      intro n member
      apply later
      rw [begun_cons]
      exact List.mem_append_right _ member
    have same : ∀ t' : Text, t'.body = t.body → t'.insertions ids = t.insertions ids ++ [] := by
      intro t' body
      rw [append_nil, Text.insertions, Text.insertions]
      simp only [Text.part, body]
    cases call with
    | put a =>
      have added := (t.add_insertions distinct inside (.text a)).append_right (inserted calls)
      exact (ih (t.add (.text a)) inside more).trans added
    | insertpart n =>
      have added := (t.add_insertions distinct inside (.insert n)).append_right (inserted calls)
      exact (ih (t.add (.insert n)) inside more).trans added
    | beginpart n =>
      refine (ih _ ?_ more).trans (List.Perm.of_eq (congrArg (· ++ inserted calls) (same _ rfl)))
      intro m member
      rcases mem_cons.mp member with rfl | outer
      · exact later m mem_cons_self
      · exact inside m outer
    | endpart n =>
      refine (ih _ ?_ more).trans (List.Perm.of_eq (congrArg (· ++ inserted calls) (same _ rfl)))
      intro m member
      exact inside m (List.mem_of_mem_tail member)

theorem WellFormed.insertions (wellFormed : WellFormed calls) :
    ((text calls).insertions (begun calls)).Perm (begun calls) := by
  have all := Text.start.run_insertions calls wellFormed.once (by simp [Text.start])
    (fun _ member => member)
  have none : Text.start.insertions (begun calls) = [] := by
    unfold Text.insertions
    simp [Text.start, Text.part, inserts]
  rw [none, List.nil_append] at all
  exact all.trans wellFormed.inserted

theorem text_absent {n : Nat} (calls : List Call) (t : Text) (inside : n ∉ t.open_)
    (absent : n ∉ begun calls) : (calls.foldl Text.call t).part n = t.part n := by
  induction calls generalizing t with
  | nil => rfl
  | cons call calls ih =>
    rw [begun_cons] at absent
    have later : n ∉ begun calls := fun member => absent (List.mem_append_right _ member)
    have added : ∀ item, (t.add item).part n = t.part n := by
      intro item
      apply Text.add_others
      intro first
      exact inside (List.mem_of_head? first.symm)
    cases call with
    | put a => exact (ih (t.add _) inside later).trans (added _)
    | insertpart m => exact (ih (t.add _) inside later).trans (added _)
    | beginpart m =>
      refine ih _ ?_ later
      intro member
      rcases mem_cons.mp member with rfl | outer
      · exact absent (List.mem_append_left _ mem_cons_self)
      · exact inside outer
    | endpart m => exact ih _ (fun member => inside (List.mem_of_mem_tail member)) later

end Insertions

/-! ## The texts that are cut off -/

section Cut

variable {calls : List Call} {cut : Nat → Option Nat}

def cutPart (cut : Nat → Option Nat) (calls : List Call) (n : Nat) : List (Item Byte Nat) :=
  match cut n with
  | some k => ((text calls).part n).take k
  | none => (text calls).part n

def lostPart (cut : Nat → Option Nat) (calls : List Call) (n : Nat) : List (Item Byte Nat) :=
  match cut n with
  | some k => ((text calls).part n).drop k
  | none => []

theorem cut_lost (cut : Nat → Option Nat) (n : Nat)
    : cutPart cut calls n ++ lostPart cut calls n = (text calls).part n := by
  unfold cutPart lostPart
  cases cut n with
  | some k => exact List.take_append_drop k _
  | none => exact append_nil _

def CutHere (cut : Nat → Option Nat) (calls : List Call) : Prop :=
  ∀ before n after, calls = before ++ .insertpart n :: after →
    cut n = if (course before).sequential = true ∧ n ∈ (course before).begun then
      some ((text before).part n).length else none

theorem text_snoc (done : List Call) (call : Call) :
    text (done ++ [call]) = (text done).call call := List.foldl_concat ..

theorem course_snoc (done : List Call) (call : Call) :
    course (done ++ [call]) = (course done).call call := List.foldl_concat ..

/-- By induction on the calls that are left. -/
theorem Resolves.run {Y : Nat → List Byte} (once : (inserted calls).Nodup) (here : CutHere cut calls)
    (solves : Solves (cutPart cut calls) Y) (proper : ∀ n, .insert n ∉ (text calls).part n)
    (rest : List Call) : ∀ (done : List Call) {h h' : Held}, calls = done ++ rest →
      Resolves Y cut (text done) (inserted done) (begun done) h →
      Follows (text done) (course done) (begun done) h → Nested (text done).open_ rest →
      rest.foldlM Held.call h = some h' →
      Resolves Y cut (text calls) (inserted calls) (begun calls) h' := by
  induction rest with
  | nil =>
    intro done h h' split resolves _ _ ran
    rw [append_nil] at split
    cases ran
    rw [split]
    exact resolves
  | cons call rest ih =>
    intro done h h' split resolves follows nested ran
    obtain ⟨h₁, step, later⟩ := Option.bind_eq_some_iff.mp ran
    obtain ⟨nested', ends⟩ := nested_call nested
    have whole : text calls = (call :: rest).foldl Text.call (text done) := by
      rw [split, text, List.foldl_append]
      rfl
    have next := resolves.call follows (follows.proper (by rw [← whole]; exact proper)) (by
        rintro n rfl
        have parts : inserted calls = inserted done ++ n :: inserted rest := by
          rw [split]
          simp [inserted]
        have distinct := once
        rw [parts] at distinct
        intro member
        exact (List.nodup_append.mp distinct).2.2 n member n mem_cons_self rfl)
      (by
        rintro n rfl
        exact here done n rest split) (by
        rintro n rfl cutN
        have kept := solves n
        unfold cutPart at kept
        rw [cutN] at kept
        have before : (text done).part n <+: (text calls).part n := by
          rw [whole]
          exact text_prefix _ _ _
        rw [List.prefix_iff_eq_take.mp before]
        exact kept) step
    have follows' := follows.call ends step
    refine ih (done ++ [call]) (by rw [split]; simp) ?_ ?_ ?_ later
    · rw [text_snoc, inserted, begun, List.filterMap_append, List.filterMap_append]
      exact next
    · rw [text_snoc, course_snoc, begun, List.filterMap_append]
      exact follows'
    · rw [text_snoc]
      exact nested'

end Cut

/-! ## The output -/

section Output

variable {buf : Bufsiz} {calls : List Call} {cut : Nat → Option Nat} {Y : Nat → List Byte}
  {s : Code} {h : Held}

theorem WellFormed.proper (wellFormed : WellFormed calls) (n : Nat) :
    .insert n ∉ (text calls).part n := by
  obtain ⟨rank, lower⟩ := wellFormed.acyclic
  intro member
  exact Nat.lt_irrefl _ (lower n n member)

theorem part_absent {n : Nat} (absent : n ∉ begun calls) : (text calls).part n = [] :=
  (text_absent calls Text.start (by simp [Text.start]) absent).trans rfl

section

variable (resolves : Resolves Y cut (text calls) (inserted calls) (begun calls) h)
  (follows : Follows (text calls) (course calls) (begun calls) h)
include resolves follows

theorem Resolves.kept_inserts (later : h.sequential = false) (p : Nat) :
    (inserts (h.held p)).Sublist
      (if p = 0 then inserts ((text calls).body none) else inserts ((text calls).part p)) := by
  by_cases zero : p = 0
  · subst zero
    exact resolves.subMain later
  · rw [if_neg zero]
    by_cases member : p ∈ begun calls
    · exact resolves.sub p member
    · have none : h.held p = [] := by
        apply follows.outside
        rw [follows.table]
        simp [member, zero]
      rw [none]
      exact List.nil_sublist _

/-- Out of sequence every part is inserted once, so the insertions are a forest. -/
theorem Resolves.forest (wellFormed : WellFormed calls) (later : h.sequential = false) :
    ∃ rank, Forest h.held rank ∧ ∀ i p, .insert i ∈ h.held p → i ∈ begun calls := by
  have kept := resolves.kept_inserts follows later
  have all := wellFormed.insertions
  have once : ((text calls).insertions (begun calls)).Nodup := all.nodup_iff.mpr wellFormed.once
  obtain ⟨nodupMain, nodupParts, apart⟩ := List.nodup_append.mp once
  rw [List.nodup_flatMap] at nodupParts
  have free := follows.ids later
  have where_ : ∀ i p, .insert i ∈ h.held p →
      (p = 0 ∧ i ∈ inserts ((text calls).body none)) ∨
        (p ≠ 0 ∧ p ∈ begun calls ∧ i ∈ inserts ((text calls).part p)) := by
    intro i p member
    have inside := (kept p).subset (mem_inserts.mpr member)
    by_cases zero : p = 0
    · rw [if_pos zero] at inside
      exact Or.inl ⟨zero, inside⟩
    · rw [if_neg zero] at inside
      refine Or.inr ⟨zero, ?_, inside⟩
      by_contra outside
      rw [part_absent outside] at inside
      cases inside
  have inParts : ∀ i p, p ∈ begun calls → i ∈ inserts ((text calls).part p) →
      i ∈ (begun calls).flatMap fun n => inserts ((text calls).part n) := by
    intro i p member inside
    exact List.mem_flatMap.mpr ⟨p, member, inside⟩
  have listed : ∀ i p, .insert i ∈ h.held p → i ∈ begun calls := by
    intro i p member
    apply all.subset
    rcases where_ i p member with ⟨_, inMain⟩ | ⟨_, begunP, inP⟩
    · exact List.mem_append_left _ inMain
    · exact List.mem_append_right _ (inParts i p begunP inP)
  obtain ⟨rank, lower⟩ := wellFormed.acyclic
  obtain ⟨top, highest⟩ : ∃ top, ∀ i ∈ begun calls, rank i < top := by
    refine ⟨((begun calls).map rank).sum + 1, ?_⟩
    intro i member
    exact Nat.lt_succ_of_le (List.single_le_sum (by simp) _ (List.mem_map_of_mem member))
  have symmetric : Std.Symm (Function.onFun List.Disjoint fun n => inserts ((text calls).part n)) :=
    ⟨fun _ _ disjoint => disjoint.symm⟩
  refine ⟨fun n => if n = 0 then top else rank n, ⟨?_, ?_, ?_⟩, listed⟩
  · intro p i member
    have begunI := listed i p member
    have other : i ≠ 0 := by
      rintro rfl
      exact free begunI
    rw [if_neg other]
    rcases where_ i p member with ⟨zero, _⟩ | ⟨zero, _, inP⟩
    · rw [if_pos zero]
      exact highest i begunI
    · rw [if_neg zero]
      exact lower p i (mem_inserts.mp inP)
  · intro i p q inP inQ
    rcases where_ i p inP with ⟨zeroP, mainP⟩ | ⟨_, begunP, bodyP⟩
    · rcases where_ i q inQ with ⟨zeroQ, _⟩ | ⟨_, begunQ, bodyQ⟩
      · rw [zeroP, zeroQ]
      · exact absurd rfl (apart i mainP i (inParts i q begunQ bodyQ))
    · rcases where_ i q inQ with ⟨_, mainQ⟩ | ⟨_, begunQ, bodyQ⟩
      · exact absurd rfl (apart i mainQ i (inParts i p begunP bodyP))
      · by_contra other
        have pair := nodupParts.2.forall begunP begunQ other
        exact pair bodyP bodyQ
  · intro p
    by_cases zero : p = 0
    · have sub := kept p
      rw [if_pos zero] at sub
      exact nodupMain.sublist sub
    · have sub := kept p
      rw [if_neg zero] at sub
      by_cases member : p ∈ begun calls
      · exact (nodupParts.1 p member).sublist sub
      · rw [part_absent member] at sub
        exact List.nodup_nil.sublist sub

end

/-- What the code writes, except if nothing has gone to the store.  How deep the parts are
does not depend on the state. -/
theorem Resolves.closes (buf : Bufsiz)
    (resolves : Resolves Y cut (text calls) (inserted calls) (begun calls) h)
    (follows : Follows (text calls) (course calls) (begun calls) h)
    (wellFormed : WellFormed calls) (solves : Solves (cutPart cut calls) Y)
    (top : (text calls).open_ = []) (used : h.sequential = true ∨ 0 < h.stored) :
    ∃ enough, ∀ s, Matches buf s h → ∀ fuel, enough ≤ fuel →
      s.close buf fuel = some (flat Y ((text calls).body none)) := by
  have levels := follows.levels
  rw [top, List.nil_append] at levels
  cases sequential : h.sequential with
  | true =>
    rw [if_pos sequential] at levels
    refine ⟨0, fun s here fuel _ => ?_⟩
    rw [here.close_direct sequential levels, ← resolves.main, if_pos sequential, append_nil]
  | false =>
    rw [sequential] at levels
    obtain ⟨rank, forest, listed⟩ := resolves.forest follows wellFormed sequential
    refine ⟨rank 0, fun s here fuel enough => ?_⟩
    have solves' : ∀ n, flat Y (h.held n) = flat (fun n => flat Y (h.held n)) (h.held n) := by
      intro n
      apply flat_congr
      intro j member
      have begunJ := listed j n member
      have whole := solves j
      unfold cutPart at whole
      rw [resolves.uncut n j member] at whole
      rw [resolves.parts j begunJ, resolves.uncut n j member]
      simp only [Option.getD_none, ite_self]
      exact whole
    have closed := here.close_parts sequential levels
      (used.resolve_left (by rw [sequential]; simp)) forest (by
        intro i p member
        exact (follows.table i).mpr (Or.inl (listed i p member))) solves' enough
    rw [closed, ← resolves.main, sequential]
    simp

theorem WellFormed.finished (wellFormed : WellFormed calls)
    (ran : calls.foldlM Held.call Held.start = some h) :
    Follows (text calls) (course calls) (begun calls) h ∧ (text calls).open_ = [] := by
  have nested : Nested Text.start.open_ (calls ++ []) := by
    rw [append_nil]
    exact wellFormed.nested
  have follows := follows_start.run [] nested ran
  exact ⟨follows, nested_after nested⟩

theorem WellFormed.no_text (wellFormed : WellFormed calls) {X : Nat → List Byte}
    (solves : Solves (text calls).part X) (nothing : ∀ k, texts ((text calls).body k) = 0) :
    flat X ((text calls).body none) = [] := by
  have total := flat_once (Y := X) wellFormed.insertions
  have whole : ∀ n, flat X ((text calls).part n) = X n := fun n => (solves n).symm
  have none : ∀ n, texts ((text calls).part n) = 0 := fun n => nothing (some n)
  simp only [whole, none, nothing, List.map_const', List.sum_replicate, smul_zero] at total
  rw [← List.length_eq_zero_iff]
  omega

theorem inserted_split {n : Nat} (member : n ∈ inserted calls) :
    ∃ before after, calls = before ++ .insertpart n :: after := by
  obtain ⟨call, here, same⟩ := List.mem_filterMap.mp member
  cases call with
  | insertpart m =>
    cases same
    exact List.append_of_mem here
  | _ => cases same

section Cuts

variable {X : Nat → List Byte}

/-- Nothing is lost if and only if no part gets text after it has been inserted. -/
theorem lost_iff (wellFormed : WellFormed calls) (cutHere : CutHere cut calls)
    (solves : Solves (text calls).part X) :
    (∀ n, flat X (lostPart cut calls n) = []) ↔
      ∀ before n after, calls = before ++ .insertpart n :: after →
        (course before).sequential = true → n ∈ (course before).begun →
        Expands (text calls).part (((text calls).part n).drop ((text before).part n).length) [] := by
  constructor
  · intro nothing before n after split now listed
    have here := cutHere before n after split
    rw [if_pos ⟨now, listed⟩] at here
    have none := nothing n
    unfold lostPart at none
    rw [here] at none
    rw [← none]
    exact expands_flat wellFormed.acyclic solves _
  · intro follows n
    unfold lostPart
    cases here : cut n with
    | none => rfl
    | some k =>
      by_cases member : n ∈ begun calls
      · obtain ⟨before, after, split⟩ := inserted_split (wellFormed.inserted.mem_iff.mpr member)
        have same := cutHere before n after split
        rw [here] at same
        split at same
        · rename_i both
          cases same
          exact ((follows before n after split both.1 both.2).eq_flat solves).symm
        · cases same
      · dsimp only
        rw [part_absent member, List.drop_nil]
        rfl

end Cuts

theorem write_used (buf : Bufsiz) (wellFormed : WellFormed calls) (cutHere : CutHere cut calls)
    (solves : Solves (cutPart cut calls) Y)
    (ran : calls.foldlM Held.call Held.start = some h) (used : h.sequential = true ∨ 0 < h.stored) :
    ∃ enough, ∀ fuel, enough ≤ fuel →
      write buf fuel calls = some (flat Y ((text calls).body none)) := by
  have onceInserted : (inserted calls).Nodup :=
    wellFormed.inserted.nodup_iff.mpr wellFormed.once
  obtain ⟨follows, top⟩ := wellFormed.finished ran
  have resolves := Resolves.run onceInserted cutHere solves wellFormed.proper calls []
    rfl resolves_start follows_start wellFormed.nested ran
  obtain ⟨enough, closes⟩ := resolves.closes buf follows wellFormed solves top used
  refine ⟨enough, fun fuel deep => ?_⟩
  obtain ⟨s, done, here⟩ := ((matches_start buf).run fuel follows_start
    wellFormed.nested wellFormed.proper).1 h ran
  unfold write
  rw [done]
  exact closes s here fuel deep

/-- The output of calls of which nothing goes to the store. -/
theorem write_unused (buf : Bufsiz) (wellFormed : WellFormed calls)
    (ran : calls.foldlM Held.call Held.start = some h) (later : h.sequential = false)
    (none : h.stored = 0) (fuel : Nat) : ∃ out, write buf fuel calls = some out ∧
      (h.written = [] → out = []) ∧ (h.written ≠ [] → out.length < h.written.length) := by
  obtain ⟨follows, top⟩ := wellFormed.finished ran
  obtain ⟨s, done, here⟩ := ((matches_start buf).run fuel follows_start
    wellFormed.nested wellFormed.proper).1 h ran
  have levels : h.levels ≠ [] := by
    rw [follows.levels, later]
    simp
  obtain ⟨out, closed, empty, short⟩ := here.close_unused levels none fuel
  refine ⟨out, ?_, empty, short⟩
  unfold write
  rw [done]
  exact closed

/-- The output is the expansion of the main text if and only if the calls are in order. -/
theorem write_expansion_iff (buf : Bufsiz) (calls : List Call) (wellFormed : WellFormed calls) :
    WritesExpansion buf calls ↔ InOrder calls := by
  have onceInserted : (inserted calls).Nodup :=
    wellFormed.inserted.nodup_iff.mpr wellFormed.once
  obtain ⟨X, solvesX⟩ := wellFormed.acyclic.solution
  obtain ⟨cut, cutHere⟩ := exists_cut onceInserted
  have acyclicCut : Acyclic (cutPart cut calls) := wellFormed.acyclic.mono fun i j member => by
    rw [← cut_lost cut i]
    exact List.mem_append_left _ member
  obtain ⟨Y, solvesY⟩ := acyclicCut.solution
  have lost := cut_flat_iff wellFormed.acyclic (cut_lost cut) (fun i absent => part_absent absent)
    wellFormed.insertions solvesX solvesY
  rw [lost_iff wellFormed cutHere solvesX] at lost
  have runs := follows_start.runs_iff wellFormed.nested wellFormed.once
  have shorter := cut_length (cut_lost cut)
    wellFormed.insertions solvesX solvesY
  constructor
  · rintro ⟨out, expands, enough, writes⟩
    have same := expands.eq_flat solvesX
    cases ran : calls.foldlM Held.call Held.start with
    | none =>
      have stopped := ((matches_start buf).run enough follows_start wellFormed.nested
        wellFormed.proper).2 ran
      have wrote := writes enough (Nat.le_refl _)
      unfold write at wrote
      rw [stopped] at wrote
      cases wrote
    | some h =>
      obtain ⟨outside, ids, room⟩ := runs.mp ⟨h, ran⟩
      obtain ⟨follows, _⟩ := wellFormed.finished ran
      by_cases used : h.sequential = true ∨ 0 < h.stored
      · obtain ⟨enough', output⟩ := write_used buf wellFormed cutHere solvesY ran used
        have wrote := writes (max enough enough') (Nat.le_max_left _ _)
        rw [output _ (Nat.le_max_right _ _)] at wrote
        refine ⟨outside, lost.mp ?_, ids, ?_, room⟩
        · rw [← same]
          exact Option.some.inj wrote
        · rcases used with now | stored
          · exact Or.inl (follows.sequential.trans now)
          · exact Or.inr (Or.inl (follows.stored ▸ stored))
      · rw [not_or] at used
        have later : h.sequential = false := by simpa using used.1
        have unstored : h.stored = 0 := by omega
        obtain ⟨out', wrote, empty, short⟩ := write_unused buf wellFormed ran later unstored enough
        rw [writes enough (Nat.le_refl _)] at wrote
        cases wrote
        have written : h.written = [] := by
          by_contra some_
          have less := short some_
          obtain ⟨_, top⟩ := wellFormed.finished ran
          have resolves := Resolves.run onceInserted cutHere solvesY wellFormed.proper calls []
            rfl resolves_start follows_start wellFormed.nested ran
          have longer := congrArg List.length resolves.main
          rw [List.length_append] at longer
          rw [same] at less
          omega
        have direct : (course calls).direct = 0 := by
          rw [follows.direct, written]
          rfl
        refine ⟨outside, lost.mp ?_, ids, Or.inr (Or.inr direct), room⟩
        have none := wellFormed.no_text solvesX
          (follows.nothing direct (follows.stored.trans unstored))
        rw [none] at shorter ⊢
        rw [← List.length_eq_zero_iff]
        rw [List.length_nil] at shorter
        omega
  · intro inOrder
    obtain ⟨h, ran⟩ := runs.mpr ⟨inOrder.outside, inOrder.ids, inOrder.room⟩
    obtain ⟨follows, _⟩ := wellFormed.finished ran
    refine ⟨flat X ((text calls).body none), expands_flat wellFormed.acyclic solvesX _, ?_⟩
    by_cases used : h.sequential = true ∨ 0 < h.stored
    · obtain ⟨enough, output⟩ := write_used buf wellFormed cutHere solvesY ran used
      rw [lost.mpr inOrder.follows] at output
      exact ⟨enough, output⟩
    · rw [not_or] at used
      have later : h.sequential = false := by simpa using used.1
      have unstored : h.stored = 0 := by omega
      have direct : (course calls).direct = 0 := by
        rcases inOrder.flushed with now | stored | direct
        · exact absurd (follows.sequential.symm.trans now) used.1
        · rw [follows.stored] at stored
          omega
        · exact direct
      have written : h.written = [] := by
        rw [← List.length_eq_zero_iff, ← follows.direct, direct]
      have none := wellFormed.no_text solvesX
        (follows.nothing direct (follows.stored.trans unstored))
      rw [none]
      refine ⟨0, fun fuel _ => ?_⟩
      obtain ⟨out, wrote, empty, _⟩ := write_unused buf wellFormed ran later unstored fuel
      rw [wrote, empty written]

end Output

/-! ## Two outputs -/

def buf1024 : Bufsiz := ⟨10, by decide⟩

/-- Part 1 is inserted before it is defined, and part 2 while part 1 is being defined. -/
def laterCalls : List Call :=
  [.put 1, .insertpart 1, .put 2, .beginpart 1, .put 3, .insertpart 2, .put 4, .beginpart 2, .put 5,
    .endpart 2, .endpart 1]

example : write buf1024 2 laterCalls = some [1, 3, 5, 4, 2] := by decide

/-- Part 1 is inserted in part 2 while it is being defined. -/
def openCalls : List Call :=
  [.beginpart 1, .put 3, .beginpart 2, .insertpart 1, .endpart 2, .put 4, .endpart 1, .insertpart 2]

theorem laterCalls_wellFormed : WellFormed laterCalls where
  nested := by simp [laterCalls, Nested]
  once := by decide
  inserted := by decide
  acyclic := by
    refine ⟨fun n => if n = 1 then 1 else 0, ?_⟩
    intro i j member
    by_cases one : i = 1
    · subst one
      have part : (text laterCalls).part 1 = [.text 3, .insert 2, .text 4] := rfl
      rw [part] at member
      simp at member
      subst member
      decide
    · by_cases two : i = 2
      · subst two
        have part : (text laterCalls).part 2 = [.text 5] := rfl
        rw [part] at member
        simp at member
      · rw [part_absent (by simp [begun, laterCalls, one, two])] at member
        cases member

theorem openCalls_part (i : Nat) : (text openCalls).part i =
    if i = 1 then [.text 3, .text 4] else if i = 2 then [.insert 1] else [] := by
  by_cases one : i = 1
  · subst one
    rfl
  · by_cases two : i = 2
    · subst two
      rfl
    · rw [if_neg one, if_neg two]
      exact part_absent (by simp [begun, openCalls, one, two])

theorem openCalls_wellFormed : WellFormed openCalls where
  nested := by simp [openCalls, Nested]
  once := by decide
  inserted := by decide
  acyclic := by
    refine ⟨fun n => if n = 2 then 1 else 0, ?_⟩
    intro i j member
    rw [openCalls_part] at member
    split at member
    · simp at member
    · split at member
      · rename_i two
        subst two
        simp at member
        subst member
        decide
      · cases member

theorem write_later_iff : WritesExpansion buf1024 laterCalls ↔ InOrder laterCalls :=
  write_expansion_iff buf1024 laterCalls laterCalls_wellFormed

/-- What is put in part 1 after it has been inserted is lost. -/
theorem write_open_lost : WellFormed openCalls ∧ ¬WritesExpansion buf1024 openCalls := by
  refine ⟨openCalls_wellFormed, ?_⟩
  rintro ⟨out, expands, enough, writes⟩
  have solves : Solves (text openCalls).part
      fun i => if i = 1 then [3, 4] else if i = 2 then [3, 4] else [] := by
    intro i
    rw [openCalls_part]
    by_cases one : i = 1
    · simp [one]
    · by_cases two : i = 2
      · simp [two]
      · simp [one, two]
  have expanded : out = [3, 4] := expands.eq_flat solves
  have wrote : ∀ fuel, write buf1024 fuel openCalls = some [3] := fun fuel => rfl
  have same := writes enough (Nat.le_refl _)
  rw [wrote, expanded] at same
  exact absurd (Option.some.inj same) (by decide)

end AckFormal.EmCode
