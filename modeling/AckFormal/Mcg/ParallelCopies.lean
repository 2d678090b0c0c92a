import AckFormal.Mcg.InsertMoves
import AckFormal.Lib.CopyGraph

/-!
# Parallel copies

The moves of `insert_moves` should act like one copy of all sources at once.
They do where the copies form no cycle longer than two: after a swap the code
patches the copies to the old source, where those from the old destination would
have to be patched, and in a cycle of two these are the same.
-/

namespace AckFormal.Mcg.ParallelCopies

open AckFormal.Data RegisterAllocator InsertMoves Lib.CopyGraph
open Function (comp_apply update update_of_ne update_self)

def Alone (aliases : Hreg → List Hreg) : Prop :=
  ∀ h other, other ∈ aliases h ↔ other = h

/-! ## One turn -/

inductive Turn (srcregs : Assignment) (copies : Copies) : Copies × Option Move → Prop where
  | copy {src dest : Hreg} (inside : (src, dest) ∈ copies) (free : ∀ other, (dest, other) ∉ copies) :
      Turn srcregs copies
        (Pmap.remove copies src dest, some (.move (Pmap.findleft srcregs src) src dest))
  | settled {src : Hreg} (blocked : Blocked copies) (inside : (src, src) ∈ copies) :
      Turn srcregs copies (Pmap.remove copies src src, none)
  | swap {src dest : Hreg} (blocked : Blocked copies) (inside : (src, dest) ∈ copies)
      (differs : src ≠ dest) :
      Turn srcregs copies
        (patch src dest (Pmap.remove copies src dest), some (.swap src dest))

variable {aliases : Hreg → List Hreg} {copies : Copies} {src dest s : Hreg}

theorem freeDest_iff (alone : Alone aliases) (copies : Copies) (dest : Hreg) :
    freeDest aliases copies dest = true ↔ ∀ other, (dest, other) ∉ copies := by
  unfold freeDest
  simp only [List.all_eq_true, Option.isNone_iff_eq_none, Pmap.findleft_eq_none]
  constructor
  · intro free
    exact free dest ((alone dest dest).mpr rfl)
  · intro free other inside
    rw [(alone dest other).mp inside]
    exact free

theorem turn_cases (alone : Alone aliases) (srcregs : Assignment) (first : Hreg × Hreg)
    (rest : Copies) :
    Turn srcregs (first :: rest) (turn aliases srcregs first (first :: rest)) := by
  unfold turn
  cases found : (first :: rest).find? fun node => freeDest aliases (first :: rest) node.2 with
  | some node =>
    have free := List.find?_some found
    rw [freeDest_iff alone] at free
    exact Turn.copy (List.mem_of_find?_eq_some found) free
  | none =>
    have blocked : Blocked (first :: rest) := by
      intro node inside
      have notFree := List.find?_eq_none.mp found node inside
      rw [freeDest_iff alone] at notFree
      push Not at notFree
      exact notFree
    obtain ⟨src, dest⟩ := first
    have found : Pmap.findleft ((src, dest) :: rest) src = some dest := if_pos rfl
    dsimp only
    rw [found, Option.getD_some]
    split
    next same =>
      subst same
      exact Turn.settled blocked List.mem_cons_self
    next differs => exact Turn.swap blocked List.mem_cons_self differs

variable {srcregs : Assignment} {next : Copies × Option Move}

theorem Turn.length (taken : Turn srcregs copies next) : next.1.length + 1 = copies.length := by
  cases taken with
  | copy inside free => exact List.length_erase_add_one inside
  | settled blocked inside => exact List.length_erase_add_one inside
  | swap blocked inside differs =>
    rw [patch, List.length_map]
    exact List.length_erase_add_one inside

/-- The loop ends: every turn takes a copy from the list. -/
theorem emitted_isSome (alone : Alone aliases) (srcregs : Assignment) {fuel : Nat}
    (enough : copies.length ≤ fuel) :
    ∃ moves, emitted aliases srcregs fuel copies = some moves := by
  induction fuel generalizing copies with
  | zero =>
    cases copies with
    | nil => exact ⟨[], rfl⟩
    | cons first rest => cases enough
  | succ fuel ih =>
    cases copies with
    | nil => exact ⟨[], rfl⟩
    | cons first rest =>
      have shorter := (turn_cases alone srcregs first rest).length
      obtain ⟨moves, ran⟩ :=
        ih (show (turn aliases srcregs first (first :: rest)).1.length ≤ fuel by omega)
      rw [emitted, ran]
      exact ⟨_, rfl⟩

theorem emitted_induction (alone : Alone aliases) (srcregs : Assignment) {α : Type}
    {I : Copies → (Hreg → α) → Prop} {P : (Hreg → α) → Prop} (final : ∀ regs, I [] regs → P regs)
    (step : ∀ copies next regs, I copies regs → Turn srcregs copies next →
      I next.1 (execAll next.2.toList regs)) {fuel : Nat} {moves : List Move} {regs : Hreg → α}
    (ran : emitted aliases srcregs fuel copies = some moves) (holds : I copies regs) :
    P (execAll moves regs) := by
  induction fuel generalizing copies moves regs with
  | zero =>
    cases copies with
    | nil =>
      cases ran
      exact final regs holds
    | cons first rest => cases ran
  | succ fuel ih =>
    cases copies with
    | nil =>
      cases ran
      exact final regs holds
    | cons first rest =>
      rw [emitted, Option.map_eq_some_iff] at ran
      obtain ⟨later, run, whole⟩ := ran
      have kept := ih run (step _ _ regs holds (turn_cases alone srcregs first rest))
      rw [← whole, execAll, List.foldl_append]
      exact kept

theorem mem_patch {d : Hreg} (inside : (s, d) ∈ patch src dest copies) :
    ((s, d) ∈ copies ∧ d ≠ src) ∨ ((s, src) ∈ copies ∧ d = dest) := by
  obtain ⟨⟨left, right⟩, member, made⟩ := List.mem_map.mp inside
  split at made
  next same =>
    cases made
    exact Or.inr ⟨same ▸ member, rfl⟩
  next differs =>
    cases made
    exact Or.inl ⟨member, differs⟩

theorem patch_keeps {d : Hreg} (inside : (s, d) ∈ copies) (differs : d ≠ src) :
    (s, d) ∈ patch src dest copies :=
  List.mem_map.mpr ⟨(s, d), inside, if_neg differs⟩

theorem patch_moves (inside : (s, src) ∈ copies) : (s, dest) ∈ patch src dest copies :=
  List.mem_map.mpr ⟨(s, src), inside, if_pos rfl⟩

/-- The destinations stay distinct: the new one has just been taken out. -/
theorem patch_unique (inside : (src, dest) ∈ copies) (unique : (copies.map Prod.snd).Nodup) :
    ((patch src dest (Pmap.remove copies src dest)).map Prod.snd).Nodup := by
  have nodup := List.Nodup.of_map Prod.snd unique
  have fewer : ((Pmap.remove copies src dest).map Prod.snd).Nodup :=
    unique.sublist (List.erase_sublist.map Prod.snd)
  have gone : ∀ node ∈ Pmap.remove copies src dest, node.2 ≠ dest := by
    intro node member same
    have both := (List.Nodup.mem_erase_iff nodup).mp member
    exact both.1 (List.inj_on_of_nodup_map unique both.2 inside same)
  unfold patch
  rw [List.map_map]
  refine List.Nodup.map_on ?_ (List.Nodup.of_map Prod.snd fewer)
  intro left leftIn right rightIn same
  have leftDest := gone left leftIn
  have rightDest := gone right rightIn
  refine List.inj_on_of_nodup_map fewer leftIn rightIn ?_
  simp only [comp_apply] at same
  split at same <;> split at same <;> simp_all

/-! ## Short cycles -/

/-- What the loop still owes: with `source` telling where a destination gets its
value from, the pending copies hold these values in their sources, and the
destinations without a pending copy have theirs. -/
structure Pending {α : Type} (source : Hreg → Option Hreg) (start : Hreg → α) (copies : Copies)
    (regs : Hreg → α) : Prop where
  unique : (copies.map Prod.snd).Nodup
  followed : ∀ src dest, (src, dest) ∈ copies → source dest = some src ∨ src = dest
  held : ∀ src dest first, (src, dest) ∈ copies → source dest = some first → regs src = start first
  done : ∀ dest first, source dest = some first → (∀ src, (src, dest) ∉ copies) →
    regs dest = start first

namespace Pending

variable {α : Type} {source : Hreg → Option Hreg} {start : Hreg → α} {copies : Copies}
  {regs : Hreg → α} {src dest : Hreg}

variable (pending : Pending source start copies regs)
include pending

theorem remains (inside : (src, dest) ∈ copies)
    {s d : Hreg} : (s, d) ∈ Pmap.remove copies src dest ↔ (s, d) ∈ copies ∧ d ≠ dest := by
  have nodup := List.Nodup.of_map Prod.snd pending.unique
  unfold Pmap.remove
  rw [List.Nodup.mem_erase_iff nodup]
  constructor
  · rintro ⟨differs, member⟩
    refine ⟨member, fun same => differs ?_⟩
    exact List.inj_on_of_nodup_map pending.unique member inside same
  · rintro ⟨member, differs⟩
    exact ⟨fun same => differs (congrArg Prod.snd same), member⟩

theorem remove_unique :
    ((Pmap.remove copies src dest).map Prod.snd).Nodup :=
  pending.unique.sublist (List.erase_sublist.map Prod.snd)

theorem copy (inside : (src, dest) ∈ copies)
    (free : ∀ other, (dest, other) ∉ copies) :
    Pending source start (Pmap.remove copies src dest) (update regs dest (regs src)) := by
  refine ⟨pending.remove_unique, fun s d member => ?_, fun s d first member from_ => ?_,
    fun d first from_ absent => ?_⟩
  · exact pending.followed s d ((pending.remains inside).mp member).1
  · obtain ⟨member, -⟩ := (pending.remains inside).mp member
    have other : s ≠ dest := fun same => free d (same ▸ member)
    rw [update_of_ne other]
    exact pending.held s d first member from_
  · by_cases same : d = dest
    · subst same
      rw [update_self]
      exact pending.held src d first inside from_
    · rw [update_of_ne same]
      refine pending.done d first from_ fun s member => ?_
      exact absent s ((pending.remains inside).mpr ⟨member, same⟩)

theorem settled (inside : (src, src) ∈ copies) :
    Pending source start (Pmap.remove copies src src) regs := by
  refine ⟨pending.remove_unique, fun s d member => ?_, fun s d first member from_ => ?_,
    fun d first from_ absent => ?_⟩
  · exact pending.followed s d ((pending.remains inside).mp member).1
  · exact pending.held s d first ((pending.remains inside).mp member).1 from_
  · by_cases same : d = src
    · subst same
      exact pending.held d d first inside from_
    · refine pending.done d first from_ fun s member => ?_
      exact absent s ((pending.remains inside).mpr ⟨member, same⟩)

/-- A swap settles both members of a cycle of two; the second is then copied to
itself. -/
theorem swap (short : ShortCycles source)
    (blocked : Blocked copies) (inside : (src, dest) ∈ copies) (differs : src ≠ dest) :
    Pending source start (patch src dest (Pmap.remove copies src dest))
      (update (update regs src (regs dest)) dest (regs src)) := by
  have opposite := blocked.opposite pending.unique pending.followed short inside differs
  have srcContents : update (update regs src (regs dest)) dest (regs src) src =
      regs dest := by
    rw [update_of_ne differs, update_self]
  -- the copies but these two are those that were there before
  have others {s d : Hreg} (member : (s, d) ∈ patch src dest (Pmap.remove copies src dest)) :
      ((s, d) ∈ copies ∧ d ≠ src ∧ d ≠ dest ∧ s ≠ src ∧ s ≠ dest) ∨ (s = dest ∧ d = dest) := by
    rcases mem_patch member with ⟨kept, notSrc⟩ | ⟨moved, same⟩
    · obtain ⟨kept, notDest⟩ := (pending.remains inside).mp kept
      refine Or.inl ⟨kept, notSrc, notDest, fun same => notDest ?_, fun same => notSrc ?_⟩
      · exact blocked.unique_source pending.unique (same ▸ kept) inside
      · exact blocked.unique_source pending.unique (same ▸ kept) opposite
    · obtain ⟨moved, -⟩ := (pending.remains inside).mp moved
      exact Or.inr ⟨unique_dest pending.unique moved opposite, same⟩
  refine ⟨patch_unique inside pending.unique, fun s d member => ?_, fun s d first member from_ => ?_,
    fun d first from_ absent => ?_⟩
  · rcases others member with ⟨kept, -⟩ | ⟨sameS, sameD⟩
    · exact pending.followed s d kept
    · exact Or.inr (sameS.trans sameD.symm)
  · rcases others member with ⟨kept, -, -, notSrc, notDest⟩ | ⟨sameS, sameD⟩
    · rw [update_of_ne notDest, update_of_ne notSrc]
      exact pending.held s d first kept from_
    · subst sameS sameD
      rw [update_self]
      exact pending.held src d first inside from_
  · by_cases atSrc : d = src
    · subst atSrc
      rw [srcContents]
      exact pending.held dest d first opposite from_
    · have notDest : d ≠ dest := by
        intro same
        refine absent dest ?_
        rw [same]
        exact patch_moves ((pending.remains inside).mpr ⟨opposite, differs⟩)
      rw [update_of_ne notDest, update_of_ne atSrc]
      refine pending.done d first from_ fun s member => ?_
      exact absent s (patch_keeps ((pending.remains inside).mpr ⟨member, notDest⟩) atSrc)

theorem step (short : ShortCycles source) (taken : Turn srcregs copies next) :
    Pending source start next.1 (execAll next.2.toList regs) := by
  cases taken with
  | copy inside free => exact pending.copy inside free
  | settled blocked inside => exact pending.settled inside
  | swap blocked inside differs => exact pending.swap short blocked inside differs

end Pending

/-! ## Long cycles -/

/-- The registers hold their own names at the start; a register on a long cycle
is spoiled when it holds a wrong one and no copy mentions it any more. -/
structure Spoiled (source : Hreg → Option Hreg) (copies : Copies) (regs : Hreg → Hreg) : Prop where
  wrong : ∃ a first, source a = some first ∧ regs a ≠ first ∧
    ∀ src dest, (src, dest) ∈ copies → src ≠ a ∧ dest ≠ a

theorem Spoiled.step {source : Hreg → Option Hreg} {copies : Copies} {regs : Hreg → Hreg}
    (spoiled : Spoiled source copies regs) (taken : Turn srcregs copies next) :
    Spoiled source next.1 (execAll next.2.toList regs) := by
  obtain ⟨a, first, from_, wrong, apart⟩ := spoiled.wrong
  refine ⟨a, first, from_, ?_, ?_⟩
  · cases taken with
    | copy inside free =>
      change update regs _ _ a ≠ first
      rwa [update_of_ne (apart _ _ inside).2.symm]
    | settled blocked inside => exact wrong
    | swap blocked inside differs =>
      change update (update regs _ _) _ _ a ≠ first
      rwa [update_of_ne (apart _ _ inside).2.symm, update_of_ne (apart _ _ inside).1.symm]
  · intro s d member
    cases taken with
    | copy inside free => exact apart s d (Pmap.mem_of_mem_remove member)
    | settled blocked inside => exact apart s d (Pmap.mem_of_mem_remove member)
    | swap blocked inside differs =>
      rcases mem_patch member with ⟨kept, -⟩ | ⟨moved, same⟩
      · exact apart s d (Pmap.mem_of_mem_remove kept)
      · rw [same]
        exact ⟨(apart s _ (Pmap.mem_of_mem_remove moved)).1, (apart _ _ inside).2⟩

/-- Before the first swap of a member the long cycles are whole. -/
structure Intact (source : Hreg → Option Hreg) (members : Hreg → Prop) (copies : Copies)
    (regs : Hreg → Hreg) : Prop where
  unique : (copies.map Prod.snd).Nodup
  pending : ∀ x first, members x → source x = some first → (first, x) ∈ copies
  kept : ∀ x, members x → regs x = x

namespace Intact

variable {source : Hreg → Option Hreg} {members : Hreg → Prop} {copies : Copies}
  {regs : Hreg → Hreg} {src dest : Hreg}

variable (intact : Intact source members copies regs)
include intact

theorem leave (outside : ¬ members dest) :
    Intact source members (Pmap.remove copies src dest) regs := by
  refine ⟨intact.unique.sublist (List.erase_sublist.map Prod.snd), fun x first member from_ => ?_,
    intact.kept⟩
  refine (Pmap.mem_remove_of_ne fun same => outside ?_).mpr (intact.pending x first member from_)
  cases same
  exact member

variable (long : LongCycles source members)
include long

theorem copy (free : ∀ other, (dest, other) ∉ copies) (value : Hreg) :
    Intact source members (Pmap.remove copies src dest) (update regs dest value) := by
  have outside : ¬ members dest := by
    intro member
    obtain ⟨y, from_, next⟩ := long.covered dest member
    exact free y (intact.pending y dest next from_)
  have rest : Intact source members (Pmap.remove copies src dest) regs := intact.leave outside
  refine ⟨rest.unique, rest.pending, fun x member => ?_⟩
  have apart : x ≠ dest := fun same => outside (same ▸ member)
  rw [update_of_ne apart]
  exact intact.kept x member

theorem settled
    (inside : (src, src) ∈ copies) : Intact source members (Pmap.remove copies src src) regs := by
  refine intact.leave fun member => long.long src member ?_
  obtain ⟨first, from_, -⟩ := long.closed src member
  have same := unique_dest intact.unique (intact.pending src first member from_) inside
  subst same
  rw [steps, from_, Option.bind_some, steps_one, from_]

theorem swap_outside (inside : (src, dest) ∈ copies) (outside : ¬ members src) :
    Intact source members (patch src dest (Pmap.remove copies src dest))
      (update (update regs src (regs dest)) dest (regs src)) := by
  have destOutside : ¬ members dest := by
    intro member
    obtain ⟨first, from_, next⟩ := long.closed dest member
    have same := unique_dest intact.unique (intact.pending dest first member from_) inside
    exact outside (same ▸ next)
  have rest : Intact source members (Pmap.remove copies src dest) regs := intact.leave destOutside
  refine ⟨patch_unique inside intact.unique, fun x first member from_ => ?_, fun x member => ?_⟩
  · exact patch_keeps (rest.pending x first member from_) fun same => outside (same ▸ member)
  · have notSrc : x ≠ src := fun same => outside (same ▸ member)
    have notDest : x ≠ dest := fun same => destOutside (same ▸ member)
    rw [update_of_ne notDest, update_of_ne notSrc]
    exact intact.kept x member

/-- The first swap of a member leaves its successor's value in it, for good. -/
theorem swap_inside (blocked : Blocked copies) (inside : (src, dest) ∈ copies)
    (differs : src ≠ dest) (member : members src) :
    Spoiled source (patch src dest (Pmap.remove copies src dest))
      (update (update regs src (regs dest)) dest (regs src)) := by
  obtain ⟨y, next, nextMember⟩ := long.covered src member
  have same := blocked.unique_source intact.unique (intact.pending y src nextMember next) inside
  subst same
  obtain ⟨first, from_, -⟩ := long.closed src member
  refine ⟨src, first, from_, ?_, fun s d left => ?_⟩
  · rw [update_of_ne differs, update_self, intact.kept y nextMember]
    intro short
    subst short
    refine long.long src member ?_
    rw [steps, from_, Option.bind_some, steps_one, next]
  · have only {d : Hreg} (copied : (src, d) ∈ Pmap.remove copies src y) : False := by
      have nodup := List.Nodup.of_map Prod.snd intact.unique
      have both := (List.Nodup.mem_erase_iff nodup).mp copied
      exact both.1 (congrArg (Prod.mk src) (blocked.unique_source intact.unique both.2 inside))
    rcases mem_patch left with ⟨kept, notSrc⟩ | ⟨moved, same⟩
    · exact ⟨fun same => only (same ▸ kept), notSrc⟩
    · exact ⟨fun same => only (same ▸ moved), by rw [same]; exact differs.symm⟩

theorem step (taken : Turn srcregs copies next) :
    Intact source members next.1 (execAll next.2.toList regs) ∨
      Spoiled source next.1 (execAll next.2.toList regs) := by
  cases taken with
  | copy inside free => exact Or.inl (intact.copy long free _)
  | settled blocked inside => exact Or.inl (intact.settled long inside)
  | @swap src dest blocked inside differs =>
    by_cases member : members src
    · exact Or.inr (intact.swap_inside long blocked inside differs member)
    · exact Or.inl (intact.swap_outside long inside member)

end Intact

/-! ## The work list -/

def source (srcregs destregs : Assignment) (dest : Hreg) : Option Hreg :=
  (Pmap.findleft destregs dest).bind (Pmap.findright srcregs)

theorem findleft_of_mem {destregs : Assignment} (distinct : (destregs.map Prod.fst).Nodup)
    {vreg : Vreg} (inside : (dest, vreg) ∈ destregs) : Pmap.findleft destregs dest = some vreg := by
  cases found : Pmap.findleft destregs dest with
  | none => exact absurd inside (Pmap.findleft_eq_none.mp found vreg)
  | some other =>
    have same := List.inj_on_of_nodup_map distinct (Pmap.mem_of_findleft found) inside rfl
    exact congrArg some (congrArg Prod.snd same)

/-- The loop that fills the list adds every destination once. -/
theorem fillCopies_spec {destregs : Assignment}
    (known : ∀ node ∈ destregs, (Pmap.findright srcregs node.2).isSome)
    (distinct : (destregs.map Prod.fst).Nodup) (copies : Copies)
    (apart : ∀ node ∈ destregs, node.1 ∉ copies.map Prod.snd)
    (unique : (copies.map Prod.snd).Nodup) :
    ∃ filled, fillCopies srcregs destregs copies = some filled ∧ (filled.map Prod.snd).Nodup ∧
      filled.length = copies.length + destregs.length ∧
      ∀ src dest, (src, dest) ∈ filled ↔ (src, dest) ∈ copies ∨
        ∃ vreg, (dest, vreg) ∈ destregs ∧ Pmap.findright srcregs vreg = some src := by
  induction destregs generalizing copies with
  | nil => exact ⟨copies, rfl, unique, rfl, fun _ _ => by simp⟩
  | cons node destregs ih =>
    obtain ⟨dest, vreg⟩ := node
    obtain ⟨src, found⟩ := Option.isSome_iff_exists.mp (known (dest, vreg) List.mem_cons_self)
    rw [List.map_cons, List.nodup_cons] at distinct
    have fresh : dest ∉ copies.map Prod.snd := apart (dest, vreg) List.mem_cons_self
    have added : Pmap.add copies src dest = copies ++ [(src, dest)] :=
      Pmap.add_of_not_mem fun inside => fresh (List.mem_map.mpr ⟨_, inside, rfl⟩)
    obtain ⟨filled, ran, nodup, size, members⟩ := ih
      (fun node inside => known node (List.mem_cons_of_mem _ inside)) distinct.2
      (copies ++ [(src, dest)])
      (fun node inside => by
        rw [List.map_append, List.mem_append, not_or]
        refine ⟨apart node (List.mem_cons_of_mem _ inside), fun same => distinct.1 ?_⟩
        have same : node.1 = dest := by simpa using same
        exact List.mem_map.mpr ⟨node, inside, same⟩)
      (by
        rw [List.map_append]
        exact unique.append (List.nodup_singleton dest) (by simpa using fresh))
    refine ⟨filled, ?_, nodup, ?_, fun s d => ?_⟩
    · rw [fillCopies, found]
      dsimp only
      rw [added]
      exact ran
    · rw [size, List.length_append]
      simp only [List.length_cons, List.length_nil]
      omega
    · rw [members, List.mem_append, or_assoc]
      refine or_congr_right ?_
      constructor
      · rintro (same | ⟨v, inside, from_⟩)
        · cases List.mem_singleton.mp same
          exact ⟨vreg, List.mem_cons_self, found⟩
        · exact ⟨v, List.mem_cons_of_mem _ inside, from_⟩
      · rintro ⟨v, inside, from_⟩
        rcases List.mem_cons.mp inside with same | inside
        · cases same
          rw [found, Option.some_inj] at from_
          exact Or.inl (by rw [from_]; exact List.mem_singleton_self _)
        · exact Or.inr ⟨v, inside, from_⟩

/-- What `insert_moves` is for: it ends, with its moves in order in front of the
hop, and they leave in every destination what the source of its virtual register
held before, whatever the registers held. -/
def CopiesInParallel (aliases : Hreg → List Hreg) (srcregs destregs : Assignment) : Prop :=
  ∃ moves : List Move,
    (∀ (ι : Type) (before after : List (BlockHop ι)) (fuel : Nat), destregs.length ≤ fuel →
      insertMoves aliases fuel (before ++ after) before.length srcregs destregs =
        some (before ++ moves.map .made ++ after, moves.length)) ∧
    ∀ (α : Type) (regs : Hreg → α) (dest : Hreg) (vreg : Vreg) (src : Hreg),
      (dest, vreg) ∈ destregs → Pmap.findright srcregs vreg = some src →
        execAll moves regs dest = regs src

variable {aliases : Hreg → List Hreg} {srcregs destregs : Assignment}

theorem exists_filled (known : ∀ node ∈ destregs, (Pmap.findright srcregs node.2).isSome)
    (distinct : (destregs.map Prod.fst).Nodup) :
    ∃ filled, fillCopies srcregs destregs [] = some filled ∧ (filled.map Prod.snd).Nodup ∧
      filled.length = destregs.length ∧
      ∀ src dest, (src, dest) ∈ filled ↔ source srcregs destregs dest = some src := by
  obtain ⟨filled, ran, unique, size, members⟩ := fillCopies_spec known distinct []
    (fun _ _ => List.not_mem_nil) List.nodup_nil
  refine ⟨filled, ran, unique, size.trans (Nat.zero_add _), fun src dest => ?_⟩
  rw [members]
  constructor
  · rintro (absent | ⟨vreg, inside, from_⟩)
    · cases absent
    · rw [source, findleft_of_mem distinct inside, Option.bind_some, from_]
  · intro from_
    obtain ⟨vreg, found, from_⟩ := Option.bind_eq_some_iff.mp from_
    exact Or.inr ⟨vreg, Pmap.mem_of_findleft found, from_⟩

variable {copies : Copies} {moves : List Move} {fuel : Nat}

theorem insertMoves_emitted (filled : fillCopies srcregs destregs [] = some copies)
    (ran : emitted aliases srcregs fuel copies = some moves) {ι : Type}
    (before after : List (BlockHop ι)) :
    insertMoves aliases fuel (before ++ after) before.length srcregs destregs =
      some (before ++ moves.map .made ++ after, moves.length) := by
  have placed := insertLoop_emitted ran before after []
  rw [List.map_nil, List.append_nil, List.nil_append, List.length_nil] at placed
  rw [insertMoves, filled]
  exact placed

theorem emitted_mono {more : Nat}
    (ran : emitted aliases srcregs fuel copies = some moves) (enough : fuel ≤ more) :
    emitted aliases srcregs more copies = some moves := by
  induction fuel generalizing more copies moves with
  | zero =>
    cases copies with
    | nil =>
      cases ran
      cases more <;> rfl
    | cons first rest => cases ran
  | succ fuel ih =>
    obtain ⟨more, rfl⟩ : ∃ less, more = less + 1 := ⟨more - 1, by omega⟩
    cases copies with
    | nil => exact ran
    | cons first rest =>
      rw [emitted, Option.map_eq_some_iff] at ran
      obtain ⟨later, run, whole⟩ := ran
      rw [emitted, ih run (by omega), ← whole]
      rfl

section

variable (alone : Alone aliases) (unique : (copies.map Prod.snd).Nodup)
  (members : ∀ src dest, (src, dest) ∈ copies ↔ source srcregs destregs dest = some src)
include alone unique members

/-- With short cycles every destination ends up with its value. -/
theorem execAll_of_short (short : ShortCycles (source srcregs destregs))
    (ran : emitted aliases srcregs fuel copies = some moves) {α : Type} (regs : Hreg → α)
    {dest src : Hreg} (from_ : source srcregs destregs dest = some src) :
    execAll moves regs dest = regs src := by
  have start : Pending (source srcregs destregs) regs copies regs := by
    refine ⟨unique, fun src dest inside => Or.inl ((members src dest).mp inside),
      fun src dest first inside from_ => ?_, fun dest first from_ absent => ?_⟩
    · rw [(members src dest).mp inside, Option.some_inj] at from_
      rw [from_]
    · exact absurd ((members first dest).mpr from_) (absent first)
  exact emitted_induction alone srcregs
    (fun after pending => pending.done dest src from_ fun _ => List.not_mem_nil)
    (fun copies next after pending taken => pending.step short taken)
    ran start

/-- With a longer cycle some destination ends up with a wrong one. -/
theorem execAll_of_long (notShort : ¬ ShortCycles (source srcregs destregs))
    (ran : emitted aliases srcregs fuel copies = some moves) :
    ∃ dest src, source srcregs destregs dest = some src ∧ execAll moves id dest ≠ src := by
  obtain ⟨long, cycles, x, member⟩ := exists_longCycles notShort
  have intact : Intact (source srcregs destregs) long copies id :=
    ⟨unique, fun x first _ from_ => (members first x).mpr from_, fun _ _ => rfl⟩
  refine emitted_induction alone srcregs
    (I := fun copies regs => Intact (source srcregs destregs) long copies regs ∨
      Spoiled (source srcregs destregs) copies regs)
    (P := fun regs => ∃ dest src, source srcregs destregs dest = some src ∧ regs dest ≠ src)
    ?_ ?_ ran (Or.inl intact)
  · rintro regs (intact | spoiled)
    · obtain ⟨first, from_, -⟩ := cycles.closed x member
      cases intact.pending x first member from_
    · obtain ⟨a, first, from_, wrong, -⟩ := spoiled.wrong
      exact ⟨a, first, from_, wrong⟩
  · rintro copies next regs (intact | spoiled) taken
    · exact intact.step cycles taken
    · exact Or.inr (spoiled.step taken)

end

theorem made_injective {ι : Type} {left right : List Move}
    (same : left.map (@BlockHop.made ι) = right.map .made) : left = right := by
  refine List.map_injective_iff.mpr ?_ same
  intro first second made
  cases made
  rfl

/-- `insert_moves` copies in parallel exactly when the copies form no cycle of
three or more registers; it ends in any case. -/
theorem insertMoves_parallel_iff (alone : Alone aliases)
    (known : ∀ node ∈ destregs, (Pmap.findright srcregs node.2).isSome)
    (distinct : (destregs.map Prod.fst).Nodup) :
    (CopiesInParallel aliases srcregs destregs ↔ ShortCycles (source srcregs destregs)) ∧
    ∃ moves : List Move, ∀ (ι : Type) (before after : List (BlockHop ι)) (fuel : Nat),
      destregs.length ≤ fuel →
        insertMoves aliases fuel (before ++ after) before.length srcregs destregs =
          some (before ++ moves.map .made ++ after, moves.length) := by
  obtain ⟨copies, filled, unique, size, members⟩ := exists_filled known distinct
  obtain ⟨moves, ran⟩ := emitted_isSome alone srcregs size.le
  have placed (ι : Type) (before after : List (BlockHop ι)) (fuel : Nat)
      (enough : destregs.length ≤ fuel) :
      insertMoves aliases fuel (before ++ after) before.length srcregs destregs =
        some (before ++ moves.map .made ++ after, moves.length) :=
    insertMoves_emitted filled (emitted_mono ran enough) before after
  refine ⟨⟨fun ⟨others, same, copied⟩ => ?_, fun short => ?_⟩, moves, placed⟩
  · by_contra notShort
    have moved : others = moves := by
      have first := same Unit [] [] destregs.length le_rfl
      rw [placed Unit [] [] destregs.length le_rfl] at first
      simp only [List.nil_append, List.append_nil, Option.some_inj, Prod.mk.injEq] at first
      exact (made_injective first.1).symm
    subst moved
    obtain ⟨dest, src, from_, wrong⟩ := execAll_of_long alone unique members notShort ran
    obtain ⟨vreg, found, fromVreg⟩ := Option.bind_eq_some_iff.mp from_
    exact wrong (copied Hreg id dest vreg src (Pmap.mem_of_findleft found) fromVreg)
  · refine ⟨moves, placed, fun α regs dest vreg src inside from_ => ?_⟩
    refine execAll_of_short alone unique members short ran regs ?_
    rw [source, findleft_of_mem distinct inside, Option.bind_some, from_]

/-- Two registers that change places, and a third that is copied to a fourth. -/
theorem exchange_parallel_iff :
    CopiesInParallel (fun h => [h]) [(0, 0), (1, 1), (2, 2)] [(1, 0), (0, 1), (3, 2)] ↔
      ShortCycles (source [(0, 0), (1, 1), (2, 2)] [(1, 0), (0, 1), (3, 2)]) :=
  (insertMoves_parallel_iff (fun _ _ => List.mem_singleton) (by decide) (by decide)).1

/-- Three registers that are to be rotated are rotated the other way. -/
theorem rotation_misplaced :
    ¬ ∀ (aliases : Hreg → List Hreg) (srcregs destregs : Assignment), Alone aliases →
      (∀ node ∈ destregs, (Pmap.findright srcregs node.2).isSome) →
      (destregs.map Prod.fst).Nodup → CopiesInParallel aliases srcregs destregs := by
  intro claim
  obtain ⟨moves, same, copied⟩ := claim (fun h => [h]) [(0, 0), (1, 1), (2, 2)]
    [(1, 0), (2, 1), (0, 2)] (fun _ _ => List.mem_singleton) (by decide) (by decide)
  have ran : @insertMoves Unit (fun h => [h]) 3 [] 0 [(0, 0), (1, 1), (2, 2)]
      [(1, 0), (2, 1), (0, 2)] = some ([.made (.swap 0 1), .made (.swap 1 2)], 2) := by decide
  have first := same Unit [] [] 3 le_rfl
  rw [List.nil_append, List.append_nil, List.nil_append, List.length_nil, ran, Option.some_inj,
    Prod.mk.injEq] at first
  have both : [.swap 0 1, .swap 1 2] = moves := made_injective first.1
  subst both
  exact absurd (copied Hreg id 1 0 0 (by decide) rfl) (by decide)

end AckFormal.Mcg.ParallelCopies
