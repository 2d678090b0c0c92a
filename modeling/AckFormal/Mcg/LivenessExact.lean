import AckFormal.Mcg.Liveness

/-!
# The live sets are exact

Only live registers are ever put into a set.  Each round that is not the last one
adds one of a finite number of facts; after the last one the sets are closed, and
every path to a use has been followed.
-/

namespace AckFormal.Mcg.LivenessExact

open AckFormal.Data Lib.Settle Liveness LivenessSteps
open RegisterAllocator (Vreg)
open List (mem_append_right mem_cons_of_mem mem_cons_self mem_flatMap mem_map mem_map_of_mem)

variable {program : Program}

/-! ## Imports -/

def Imported (program : Program) (v : Vreg) (bb : Nat) : Prop :=
  ∃ next ∈ program.preorder, ∃ left phi,
    (left, phi) ∈ program.phis next ∧ phi.prev = bb ∧ phi.result = v

def Keyed (program : Program) : Prop :=
  ∀ bb ∈ program.preorder, ∀ phi ∈ program.phis bb, phi.2.prev ∈ program.prevs bb

structure Preloaded (st st' : State) (imports : Nat → Vreg → Prop) : Prop where
  liveins : st'.liveins = st.liveins
  throughs : st'.throughs = st.throughs
  once : (∀ bb, (st.liveouts bb).Nodup) → ∀ bb, (st'.liveouts bb).Nodup
  liveouts : ∀ bb v, v ∈ st'.liveouts bb ↔ v ∈ st.liveouts bb ∨ imports bb v

variable {bb hop : Nat} {out : List Vreg} {rest : List Nat} {v : Vreg} {st : State}

/-- The operands of phis are live behind the predecessors they come from. -/
theorem preloadBlock_preloaded {phis : List (Vreg × Phi)}
    (keyed : ∀ phi ∈ phis, phi.2.prev ∈ program.prevs bb) (st : State) :
    ∃ st', preloadBlock program bb phis st = some st' ∧ Preloaded st st'
      (fun prev v => ∃ left phi, (left, phi) ∈ phis ∧ phi.prev = prev ∧ phi.result = v) := by
  induction phis generalizing st with
  | nil =>
    refine ⟨st, rfl, rfl, rfl, id, ?_⟩
    intro bb v
    simp
  | cons entry phis ih =>
    obtain ⟨left, phi⟩ := entry
    rw [List.forall_mem_cons] at keyed
    rw [preloadBlock, if_pos keyed.1]
    obtain ⟨st', run, liveins, throughs, once, liveouts⟩ := ih keyed.2
      { st with liveouts := Function.update st.liveouts phi.prev
                  (Arrays.appendu (st.liveouts phi.prev) phi.result).1 }
    refine ⟨st', run, liveins, throughs, ?_, ?_⟩
    · intro nodup
      apply once
      intro other
      dsimp only
      by_cases same : other = phi.prev
      · rw [same, Function.update_self]
        exact Arrays.nodup_appendu (nodup phi.prev) phi.result
      · rw [Function.update_of_ne same]
        exact nodup other
    · intro prev v
      have first : v ∈ Function.update st.liveouts phi.prev
          (Arrays.appendu (st.liveouts phi.prev) phi.result).1 prev ↔
            v ∈ st.liveouts prev ∨ phi.prev = prev ∧ phi.result = v := by
        by_cases same : prev = phi.prev
        · rw [same, Function.update_self, Arrays.mem_appendu, and_iff_right rfl]
          exact or_congr_right eq_comm
        · rw [Function.update_of_ne same, or_iff_left]
          rintro ⟨same', _⟩
          exact same same'.symm
      rw [liveouts]
      refine (or_congr_left first).trans (or_assoc.trans (or_congr_right ?_))
      constructor
      · rintro (⟨same, result⟩ | ⟨other, imports, member, same, result⟩)
        · exact ⟨left, phi, mem_cons_self, same, result⟩
        · exact ⟨other, imports, mem_cons_of_mem _ member, same, result⟩
      · rintro ⟨other, imports, member, same, result⟩
        cases member with
        | head => exact Or.inl ⟨same, result⟩
        | tail _ member => exact Or.inr ⟨other, imports, member, same, result⟩

theorem preloadBlocks_preloaded {blocks : List Nat}
    (keyed : ∀ bb ∈ blocks, ∀ phi ∈ program.phis bb, phi.2.prev ∈ program.prevs bb) (st : State) :
    ∃ st', preloadBlocks program blocks st = some st' ∧ Preloaded st st'
      (fun prev v => ∃ bb ∈ blocks, ∃ left phi,
        (left, phi) ∈ program.phis bb ∧ phi.prev = prev ∧ phi.result = v) := by
  induction blocks generalizing st with
  | nil =>
    refine ⟨st, rfl, rfl, rfl, id, ?_⟩
    intro bb v
    simp
  | cons bb blocks ih =>
    rw [List.forall_mem_cons] at keyed
    obtain ⟨middle, runFirst, first⟩ := preloadBlock_preloaded keyed.1 st
    obtain ⟨st', run, second⟩ := ih keyed.2 middle
    rw [preloadBlocks, runFirst]
    refine ⟨st', run, second.liveins.trans first.liveins, second.throughs.trans first.throughs,
      fun nodup => second.once (first.once nodup), ?_⟩
    intro prev v
    rw [second.liveouts, first.liveouts, or_assoc]
    apply or_congr_right
    rw [List.exists_mem_cons_iff]

/-! ## Only live registers -/

/-- What holds after every call; `given` are the `throughs` before the pass. -/
structure Sound (program : Program) (given : Nat → List Vreg) (st : State) : Prop where
  liveins : ∀ bb v, v ∈ st.liveins bb → LiveIn program v bb
  liveouts : ∀ bb v, v ∈ st.liveouts bb → Live program v bb []
  throughs : ∀ hop v, v ∈ st.throughs hop → v ∈ given hop ∨ LiveThrough program v hop
  kept : ∀ hop v, v ∈ given hop → v ∈ st.throughs hop
  imported : ∀ bb v, Imported program v bb → v ∈ st.liveouts bb
  once : ∀ bb, (st.liveouts bb).Nodup

theorem sound_start (keyed : Keyed program) (throughs : Nat → List Vreg) :
    ∃ st, preloadBlocks program program.preorder ⟨fun _ => [], fun _ => [], throughs⟩ = some st ∧
      Sound program throughs st := by
  obtain ⟨st, run, preloaded⟩ := preloadBlocks_preloaded keyed ⟨fun _ => [], fun _ => [], throughs⟩
  refine ⟨st, run, ?_, ?_, ?_, ?_, ?_, ?_⟩
  · intro bb v member
    rw [preloaded.liveins] at member
    cases member
  · intro bb v member
    rcases (preloaded.liveouts bb v).mp member with member | ⟨next, block, left, phi, listed, prev, result⟩
    · cases member
    · exact Live.imported block listed prev result
  · intro hop v member
    rw [preloaded.throughs] at member
    exact Or.inl member
  · intro hop v member
    rw [preloaded.throughs]
    exact member
  · intro bb v imported
    exact (preloaded.liveouts bb v).mpr (Or.inr imported)
  · exact preloaded.once fun _ => List.nodup_nil

theorem live_of_mem_before (once : out.Nodup) (live : ∀ v ∈ out, Live program v bb [])
    (member : v ∈ before program out rest) : Live program v bb rest := by
  induction rest with
  | nil => exact live v member
  | cons hop rest ih =>
    rcases (mem_before_cons once).mp member with ⟨later, kept⟩ | listed
    · exact Live.pass kept (ih later)
    · exact Live.use listed

theorem liveThrough_of_added (block : bb ∈ program.preorder) (once : out.Nodup)
    (live : ∀ v ∈ out, Live program v bb []) {first : List Nat}
    (whole : program.hops bb = first ++ rest) (added : Added program out hop v rest) :
    LiveThrough program v hop := by
  induction rest generalizing first with
  | nil => exact added.elim
  | cons other rest ih =>
    rcases added with ⟨rfl, member, kept⟩ | added
    · exact ⟨bb, block, first, rest, whole, live_of_mem_before once live member, kept⟩
    · refine @ih (first ++ [other]) ?_ added
      rw [whole, List.append_assoc]
      rfl

variable {throughs : Nat → List Vreg}

theorem Sound.liveIn_of_mem_inflow (sound : Sound program throughs st)
    (member : v ∈ inflow program bb st) : LiveIn program v bb := by
  obtain ⟨inside, noResult⟩ := (mem_inflow (sound.once bb)).mp member
  exact ⟨noResult, live_of_mem_before (sound.once bb) (sound.liveouts bb) inside⟩

theorem Sound.step {st : State} (sound : Sound program throughs st)
    {bb : Nat} (block : bb ∈ program.preorder) :
    Sound program throughs (propagateStep program bb st).1 := by
  refine ⟨?_, ?_, ?_, ?_, ?_, nodup_liveouts sound.once⟩
  · intro other v member
    rcases mem_liveins.mp member with earlier | ⟨rfl, inside⟩
    · exact sound.liveins other v earlier
    · exact sound.liveIn_of_mem_inflow inside
  · intro other v member
    rcases mem_liveouts.mp member with earlier | ⟨edge, inside⟩
    · exact sound.liveouts other v earlier
    · obtain ⟨noResult, live⟩ := sound.liveIn_of_mem_inflow inside
      exact Live.enter block edge noResult live
  · intro hop v member
    rcases (mem_throughs (sound.once bb)).mp member with earlier | added
    · exact sound.throughs hop v earlier
    · exact Or.inr (liveThrough_of_added block (sound.once bb) (sound.liveouts bb)
        (List.nil_append _).symm added)
  · intro hop v member
    exact (mem_throughs (sound.once bb)).mpr (Or.inl (sound.kept hop v member))
  · intro other v imported
    exact mem_liveouts.mpr (Or.inl (sound.imported other v imported))

/-! ## Termination -/

inductive Fact where
  | livein (bb : Nat) (v : Vreg)
  | liveout (bb : Nat) (v : Vreg)
  | through (hop : Nat) (v : Vreg)

def Holds (st : State) : Fact → Prop
  | .livein bb v => v ∈ st.liveins bb
  | .liveout bb v => v ∈ st.liveouts bb
  | .through hop v => v ∈ st.throughs hop

instance (st : State) (fact : Fact) : Decidable (Holds st fact) := by
  cases fact <;> exact inferInstanceAs (Decidable (_ ∈ _))

def allHops (program : Program) : List Nat := program.preorder.flatMap program.hops

def registers (program : Program) : List Vreg :=
  (allHops program).flatMap program.ins ++
    program.preorder.flatMap fun bb => (program.phis bb).map fun phi => phi.2.result

def facts (program : Program) : List Fact :=
  (program.preorder.flatMap fun bb => (registers program).map (Fact.livein bb)) ++
    (((program.preorder.flatMap program.prevs).flatMap fun bb =>
        (registers program).map (Fact.liveout bb)) ++
      (allHops program).flatMap fun hop => (registers program).map (Fact.through hop))

theorem Live.mem_registers (live : Live program v bb rest)
    (hops : ∀ hop ∈ rest, hop ∈ allHops program) : v ∈ registers program := by
  induction live with
  | use listed =>
    exact List.mem_append_left _ (mem_flatMap.mpr ⟨_, hops _ mem_cons_self, listed⟩)
  | pass _ _ ih => exact ih fun hop member => hops hop (mem_cons_of_mem _ member)
  | imported block listed _ result =>
    refine mem_append_right _ (mem_flatMap.mpr ⟨_, block, mem_map.mpr ?_⟩)
    exact ⟨_, listed, result⟩
  | enter block _ _ _ ih => exact ih fun hop member => mem_flatMap.mpr ⟨_, block, member⟩

theorem Added.mem {hops : List Nat} (added : Added program out hop v hops) : hop ∈ hops := by
  induction hops with
  | nil => exact added.elim
  | cons other hops ih =>
    rcases added with ⟨rfl, _⟩ | added
    · exact mem_cons_self
    · exact mem_cons_of_mem other (ih added)

theorem LiveThrough.mem_registers (live : LiveThrough program v hop) : v ∈ registers program := by
  obtain ⟨bb, block, first, after, whole, later, _⟩ := live
  refine Live.mem_registers later ?_
  intro other member
  refine mem_flatMap.mpr ⟨bb, block, ?_⟩
  rw [whole]
  exact mem_append_right first (mem_cons_of_mem hop member)

theorem LiveIn.mem_registers (block : bb ∈ program.preorder) (live : LiveIn program v bb) :
    v ∈ registers program :=
  Live.mem_registers live.2 fun _ member => mem_flatMap.mpr ⟨bb, block, member⟩

/-- A call that reports a change has added one of the facts. -/
theorem Sound.adds (sound : Sound program throughs st)
    (block : bb ∈ program.preorder) (changed : (propagateStep program bb st).2 = true) :
    ∃ fact ∈ facts program, ¬ Holds st fact ∧ Holds (propagateStep program bb st).1 fact := by
  by_contra none
  push Not at none
  have closed : Closed program bb st := by
    refine ⟨?_, ?_, ?_⟩
    · intro hop v added
      by_contra absent
      have live := liveThrough_of_added block (sound.once bb) (sound.liveouts bb)
        (List.nil_append _).symm added
      refine none (.through hop v) ?_ absent ((mem_throughs (sound.once bb)).mpr (Or.inr added))
      refine mem_append_right _ (mem_append_right _ (mem_flatMap.mpr ⟨hop, ?_, ?_⟩))
      · exact mem_flatMap.mpr ⟨bb, block, Added.mem added⟩
      · exact mem_map_of_mem (LiveThrough.mem_registers live)
    · intro v inside
      by_contra absent
      refine none (.livein bb v) ?_ absent (mem_liveins.mpr (Or.inr ⟨rfl, inside⟩))
      refine List.mem_append_left _ (mem_flatMap.mpr ⟨bb, block, ?_⟩)
      exact mem_map_of_mem (LiveIn.mem_registers block (sound.liveIn_of_mem_inflow inside))
    · intro prev edge v inside
      by_contra absent
      refine none (.liveout prev v) ?_ absent (mem_liveouts.mpr (Or.inr ⟨edge, inside⟩))
      refine mem_append_right _ (List.mem_append_left _ (mem_flatMap.mpr ⟨prev, ?_, ?_⟩))
      · exact mem_flatMap.mpr ⟨bb, block, edge⟩
      · exact mem_map_of_mem (LiveIn.mem_registers block (sound.liveIn_of_mem_inflow inside))
  unfold propagateStep at changed
  rw [propagateLiveness_quiet (sound.once bb) closed] at changed
  cases changed

theorem propagateStep_honest (program : Program) (bb : Nat) : Honest (propagateStep program bb) := by
  intro st quiet
  unfold propagateStep at quiet ⊢
  rw [Bool.not_eq_false'] at quiet
  exact propagateLiveness_same quiet

theorem propagateStep_progress (throughs : Nat → List Vreg) (block : bb ∈ program.preorder) :
    Progress (Sound program throughs) (fun st => (facts program).countP fun fact => Holds st fact)
      (propagateStep program bb) := by
  refine Progress.facts (facts program) Holds ?_ ?_ ?_
  · intro st sound
    exact sound.step block
  · intro st sound fact holds
    cases fact with
    | livein other v => exact mem_liveins.mpr (Or.inl holds)
    | liveout other v => exact mem_liveouts.mpr (Or.inl holds)
    | through hop v => exact (mem_throughs (sound.once bb)).mpr (Or.inl holds)
  · intro st sound changed
    exact sound.adds block changed

/-! ## Every live register -/

/-- In closed sets a live register is found by following its path backwards. -/
theorem mem_before_of_live {given : Nat → List Vreg} (sound : Sound program given st)
    (closed : ∀ bb ∈ program.preorder, Closed program bb st) (live : Live program v bb rest) :
    v ∈ before program (st.liveouts bb) rest := by
  induction live with
  | use listed => exact (mem_before_cons (sound.once _)).mpr (Or.inr listed)
  | pass kept _ ih => exact (mem_before_cons (sound.once _)).mpr (Or.inl ⟨ih, kept⟩)
  | imported block listed prev result =>
    exact sound.imported _ v ⟨_, block, _, _, listed, prev, result⟩
  | enter block edge noResult _ ih =>
    exact (closed _ block).liveouts _ edge v ((mem_inflow (sound.once _)).mpr ⟨ih, noResult⟩)

theorem added_of_mem_before (first : List Nat) {after : List Nat}
    (member : v ∈ before program out after) (kept : v ∉ program.outs hop) :
    Added program out hop v (first ++ hop :: after) := by
  induction first with
  | nil => exact Or.inl ⟨rfl, member, kept⟩
  | cons other first ih => exact Or.inr ih

theorem Sound.exact {given : Nat → List Vreg} (sound : Sound program given st)
    (closed : ∀ bb ∈ program.preorder, Closed program bb st) : Exact program given st := by
  have found {bb : Nat} {rest : List Nat} {v : Vreg} (live : Live program v bb rest) :
      v ∈ before program (st.liveouts bb) rest := mem_before_of_live sound closed live
  refine ⟨?_, ?_, ?_⟩
  · intro bb block v
    constructor
    · exact sound.liveins bb v
    · rintro ⟨noResult, live⟩
      exact (closed bb block).liveins v ((mem_inflow (sound.once bb)).mpr ⟨found live, noResult⟩)
  · intro bb block v
    constructor
    · exact sound.liveouts bb v
    · intro live
      exact found live
  · intro hop v
    constructor
    · exact sound.throughs hop v
    · rintro (earlier | ⟨bb, block, first, after, whole, live, kept⟩)
      · exact sound.kept hop v earlier
      · apply (closed bb block).throughs hop v
        rw [whole]
        exact added_of_mem_before first (found live) kept

/-- The analysis ends, with exact sets.  That the two orders have the same blocks is
asserted where they are made, that a phi names predecessors before the analysis. -/
theorem liveVregAnalysis_exact (orders : ∀ bb, bb ∈ program.postorder ↔ bb ∈ program.preorder)
    (keyed : Keyed program) (given : Nat → List Vreg) :
    ∃ st, (∃ enough, ∀ fuel ≥ enough, liveVregAnalysis program fuel given = some (some st)) ∧
      Exact program given st := by
  obtain ⟨start, preloaded, soundStart⟩ := sound_start keyed given
  have progress : ∀ step ∈ program.postorder.map (propagateStep program),
      Progress (Sound program given) (fun st => (facts program).countP fun fact => Holds st fact)
        step := by
    intro step member
    obtain ⟨bb, block, rfl⟩ := List.mem_map.mp member
    exact propagateStep_progress given ((orders bb).mp block)
  obtain ⟨st, enough, ends⟩ := settle_ends progress
    (fun st _ => List.countP_le_length) start soundStart
  have ended := ends enough (Nat.le_refl enough)
  have sound : Sound program given st :=
    settle_keeps (fun step member => (progress step member).keeps) soundStart ended
  refine ⟨st, ⟨enough, ?_⟩, sound.exact ?_⟩
  · intro fuel more
    rw [liveVregAnalysis, preloaded]
    dsimp only
    rw [ends fuel more]
    rfl
  · intro bb block
    have honest : ∀ step ∈ program.postorder.map (propagateStep program), Honest step := by
      intro step member
      obtain ⟨other, _, rfl⟩ := List.mem_map.mp member
      exact propagateStep_honest program other
    have still := settle_fixed honest ended _ (List.mem_map_of_mem ((orders bb).mpr block))
    apply propagateLiveness_closed (sound.once bb)
    rwa [propagateStep, Bool.not_eq_false'] at still

/-- A counting loop: the phi in block 1 takes register 0 from block 0 and register 2
from the block itself; register 3 is read after the loop. -/
def countingLoop : Program where
  preorder := [0, 1, 2]
  postorder := [2, 1, 0]
  prevs bb := if bb = 1 then [0, 1] else if bb = 2 then [1] else []
  phis bb := if bb = 1 then [(1, ⟨0, 0⟩), (1, ⟨1, 2⟩)] else []
  hops bb := if bb = 0 then [0, 1] else if bb = 1 then [2, 3] else [4]
  ins hop := if hop = 2 then [1] else if hop = 4 then [3] else []
  outs hop := if hop = 0 then [0] else if hop = 1 then [3] else if hop = 2 then [2] else []

theorem countingLoop_exact :
    ∃ st, (∃ enough, ∀ fuel ≥ enough,
        liveVregAnalysis countingLoop fuel (fun _ => []) = some (some st)) ∧
      Exact countingLoop (fun _ => []) st := by
  refine liveVregAnalysis_exact ?_ ?_ (fun _ => [])
  · intro bb
    exact (List.reverse_perm [0, 1, 2]).mem_iff
  · unfold Keyed
    decide

end AckFormal.Mcg.LivenessExact
