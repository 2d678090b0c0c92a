import AckFormal.Data.Arrays
import AckFormal.Lib.Settle
import AckFormal.Mcg.RegisterAllocator

/-!
# Liveness of virtual registers

`pass_live_vreg_analysis` goes through the blocks in postorder of the dominance
tree, backwards through the hops of each block, until a round adds nothing.  A
register imported by a phi is live at the end of the block it comes from.
-/

namespace AckFormal.Mcg.Liveness

open AckFormal.Data Lib.Settle
open RegisterAllocator (Vreg)

structure Phi where
  prev : Nat
  result : Vreg

/-- What the pass reads.  Blocks and hops are named by numbers; `hops` lists the
hops of a block, `ins` and `outs` the registers of a hop. -/
structure Program where
  preorder : List Nat
  postorder : List Nat
  prevs : Nat → List Nat
  phis : Nat → List (Vreg × Phi)
  hops : Nat → List Nat
  ins : Nat → List Vreg
  outs : Nat → List Vreg

/-- What the pass writes: two sets for each block, and one for each hop. -/
structure State where
  liveins : Nat → List Vreg
  liveouts : Nat → List Vreg
  throughs : Nat → List Vreg

/-- The inner loop of `preload_blocks`; `none` is the failed assertion. -/
def preloadBlock (program : Program) (bb : Nat) : List (Vreg × Phi) → State → Option State
  | [], st => some st
  | (_, phi) :: phis, st =>
    if phi.prev ∈ program.prevs bb then
      let added := Arrays.appendu (st.liveouts phi.prev) phi.result
      preloadBlock program bb phis
        { st with liveouts := Function.update st.liveouts phi.prev added.1 }
    else none

def preloadBlocks (program : Program) : List Nat → State → Option State
  | [], st => some st
  | bb :: blocks, st =>
    match preloadBlock program bb (program.phis bb) st with
    | none => none
    | some st => preloadBlocks program blocks st

/-- The loop over the hops, which goes from the last to the first.  It changes the
`throughs`, the set `current`, and the flag `finished`. -/
def propagateHops (program : Program) :
    List Nat → (Nat → List Vreg) × List Vreg × Bool → (Nat → List Vreg) × List Vreg × Bool
  | [], loop => loop
  | hop :: hops, loop =>
    let (throughs, current, finished) := propagateHops program hops loop
    let current := Arrays.removeall current (program.outs hop)
    let added := Arrays.appendallu (throughs hop) current
    (Function.update throughs hop added.1, (Arrays.appendallu current (program.ins hop)).1,
      finished && added.2)

def propagatePrevs (current : List Vreg) :
    List Nat → (Nat → List Vreg) × Bool → (Nat → List Vreg) × Bool
  | [], loop => loop
  | prev :: prevs, (liveouts, finished) =>
    let added := Arrays.appendallu (liveouts prev) current
    propagatePrevs current prevs (Function.update liveouts prev added.1, finished && added.2)

def propagateLiveness (program : Program) (bb : Nat) (st : State) : State × Bool :=
  let (throughs, current, finished) :=
    propagateHops program (program.hops bb) (st.throughs, st.liveouts bb, true)
  let current := Arrays.removeall current ((program.phis bb).map Prod.fst)
  let added := Arrays.appendallu (st.liveins bb) current
  let (liveouts, finished) :=
    propagatePrevs current (program.prevs bb) (st.liveouts, finished && added.2)
  (⟨Function.update st.liveins bb added.1, liveouts, throughs⟩, finished)

/-- One turn of the loop over the blocks, with `changed` for `finished`. -/
def propagateStep (program : Program) (bb : Nat) (st : State) : State × Bool :=
  let propagated := propagateLiveness program bb st
  (propagated.1, !propagated.2)

/-- `pass_live_vreg_analysis`; the outer `none` is a loop longer than the fuel, the
inner one a failed assertion. -/
def liveVregAnalysis (program : Program) (fuel : Nat) (throughs : Nat → List Vreg) :
    Option (Option State) :=
  match preloadBlocks program program.preorder ⟨fun _ => [], fun _ => [], throughs⟩ with
  | none => some none
  | some st => (settle (program.postorder.map (propagateStep program)) fuel st).map some

/-! ## What is live -/

/-- A register is live at a point, given as a block and the hops still to come:
there is a path from the point to a hop that lists it in `ins`, or to the end of a
block through which a phi imports it, with no hop on the way that lists it in
`outs` and no block entered that has it as the result of a phi. -/
inductive Live (program : Program) (v : Vreg) : Nat → List Nat → Prop where
  | use {bb hop : Nat} {rest : List Nat} (listed : v ∈ program.ins hop) :
      Live program v bb (hop :: rest)
  | pass {bb hop : Nat} {rest : List Nat} (kept : v ∉ program.outs hop)
      (later : Live program v bb rest) : Live program v bb (hop :: rest)
  | imported {bb next : Nat} {left : Vreg} {phi : Phi} (block : next ∈ program.preorder)
      (listed : (left, phi) ∈ program.phis next) (prev : phi.prev = bb) (result : phi.result = v) :
      Live program v bb []
  | enter {bb next : Nat} (block : next ∈ program.preorder) (edge : bb ∈ program.prevs next)
      (noResult : v ∉ (program.phis next).map Prod.fst)
      (later : Live program v next (program.hops next)) : Live program v bb []

def LiveIn (program : Program) (v : Vreg) (bb : Nat) : Prop :=
  v ∉ (program.phis bb).map Prod.fst ∧ Live program v bb (program.hops bb)

def LiveThrough (program : Program) (v : Vreg) (hop : Nat) : Prop :=
  ∃ bb ∈ program.preorder, ∃ before after, program.hops bb = before ++ hop :: after ∧
    Live program v bb after ∧ v ∉ program.outs hop

/-- The sets are exact; `given` are the `throughs` before the pass. -/
structure Exact (program : Program) (given : Nat → List Vreg) (st : State) : Prop where
  liveins : ∀ bb ∈ program.preorder, ∀ v, v ∈ st.liveins bb ↔ LiveIn program v bb
  liveouts : ∀ bb ∈ program.preorder, ∀ v, v ∈ st.liveouts bb ↔ Live program v bb []
  throughs : ∀ hop v, v ∈ st.throughs hop ↔ v ∈ given hop ∨ LiveThrough program v hop

end AckFormal.Mcg.Liveness

/-!
## One block of the liveness analysis

The hops of a block turn the set live at its end into the set live at its start.
A call of `propagate_liveness` only adds to the sets; it reports no change exactly
when the sets were closed under what it adds, and then leaves them.
-/

namespace AckFormal.Mcg.LivenessSteps

open AckFormal.Data Liveness
open Function (update update_eq_self update_of_ne update_self)
open RegisterAllocator (Vreg)

variable {program : Program}

/-! ## Hops -/

def before (program : Program) (out : List Vreg) : List Nat → List Vreg
  | [] => out
  | hop :: hops =>
    (Arrays.appendallu (Arrays.removeall (before program out hops) (program.outs hop))
      (program.ins hop)).1

/-- The loop puts the register into the `throughs` of the hop `x`. -/
def Added (program : Program) (out : List Vreg) (x : Nat) (v : Vreg) : List Nat → Prop
  | [] => False
  | hop :: hops =>
    hop = x ∧ v ∈ before program out hops ∧ v ∉ program.outs hop ∨ Added program out x v hops

variable {out current : List Vreg} {hops prevs : List Nat} {v : Vreg}
  {throughs liveouts : Nat → List Vreg} {finished : Bool}

theorem nodup_before (once : out.Nodup) (hops : List Nat) : (before program out hops).Nodup := by
  induction hops with
  | nil => exact once
  | cons hop hops ih => exact Arrays.nodup_appendallu (Arrays.nodup_removeall ih _) _

theorem mem_before_cons (once : out.Nodup) {hop : Nat} :
    v ∈ before program out (hop :: hops) ↔
      v ∈ before program out hops ∧ v ∉ program.outs hop ∨ v ∈ program.ins hop := by
  rw [before, Arrays.mem_appendallu, Arrays.mem_removeall (nodup_before once hops)]

theorem propagateHops_current (throughs : Nat → List Vreg) (out : List Vreg) (finished : Bool)
    (hops : List Nat) :
    (propagateHops program hops (throughs, out, finished)).2.1 = before program out hops := by
  induction hops with
  | nil => rfl
  | cons hop hops ih => rw [before, ← ih, propagateHops]

theorem mem_propagateHops (once : out.Nodup) {x : Nat} :
    v ∈ (propagateHops program hops (throughs, out, finished)).1 x ↔
      v ∈ throughs x ∨ Added program out x v hops := by
  induction hops with
  | nil => exact (or_iff_left id).symm
  | cons hop hops ih =>
    rw [propagateHops, Added]
    dsimp only
    rw [propagateHops_current]
    by_cases same : x = hop
    · subst same
      rw [update_self, Arrays.mem_appendallu, ih,
        Arrays.mem_removeall (nodup_before once hops), or_assoc]
      apply or_congr_right
      rw [or_comm]
      exact or_congr_left (and_iff_right rfl).symm
    · rw [update_of_ne same, ih]
      apply or_congr_right
      refine (or_iff_right ?_).symm
      rintro ⟨same', _⟩
      exact same same'.symm

/-- Where everything is there already the loop changes nothing. -/
theorem propagateHops_quiet (once : out.Nodup)
    (closed : ∀ x v, Added program out x v hops → v ∈ throughs x) :
    propagateHops program hops (throughs, out, finished) =
      (throughs, before program out hops, finished) := by
  induction hops with
  | nil => rfl
  | cons hop hops ih =>
    have inside : ∀ v ∈ Arrays.removeall (before program out hops) (program.outs hop),
        v ∈ throughs hop := by
      intro v member
      rw [Arrays.mem_removeall (nodup_before once hops)] at member
      exact closed hop v (Or.inl ⟨rfl, member⟩)
    have unchanged := Arrays.appendallu_unchanged.mpr inside
    rw [propagateHops, ih fun x v added => closed x v (Or.inr added)]
    dsimp only
    rw [Arrays.appendallu_eq inside, unchanged, update_eq_self, Bool.and_true, before]

theorem propagateHops_same
    (quiet : (propagateHops program hops (throughs, out, finished)).2.2 = true) :
    finished = true ∧ (propagateHops program hops (throughs, out, finished)).1 = throughs := by
  induction hops with
  | nil => exact ⟨quiet, rfl⟩
  | cons hop hops ih =>
    rw [propagateHops] at quiet ⊢
    dsimp only at quiet ⊢
    rw [Bool.and_eq_true] at quiet
    obtain ⟨still, same⟩ := ih quiet.1
    have inside := Arrays.appendallu_unchanged.mp quiet.2
    rw [Arrays.appendallu_eq inside, update_eq_self]
    exact ⟨still, same⟩

/-! ## Predecessors -/

theorem mem_propagatePrevs {bb : Nat} :
    v ∈ (propagatePrevs current prevs (liveouts, finished)).1 bb ↔
      v ∈ liveouts bb ∨ bb ∈ prevs ∧ v ∈ current := by
  induction prevs generalizing liveouts finished with
  | nil => simp [propagatePrevs]
  | cons prev prevs ih =>
    rw [propagatePrevs, ih, List.mem_cons]
    by_cases same : bb = prev
    · subst same
      rw [update_self, Arrays.mem_appendallu]
      simp only [true_or, true_and]
      constructor
      · rintro (member | ⟨_, member⟩)
        · exact member
        · exact Or.inr member
      · exact Or.inl
    · rw [update_of_ne same, or_iff_right same]

theorem nodup_propagatePrevs (once : ∀ bb, (liveouts bb).Nodup) (bb : Nat) :
    ((propagatePrevs current prevs (liveouts, finished)).1 bb).Nodup := by
  induction prevs generalizing liveouts finished with
  | nil => exact once bb
  | cons prev prevs ih =>
    apply ih
    intro other
    by_cases same : other = prev
    · rw [same, update_self]
      exact Arrays.nodup_appendallu (once prev) current
    · rw [update_of_ne same]
      exact once other

theorem propagatePrevs_quiet (closed : ∀ prev ∈ prevs, ∀ v ∈ current, v ∈ liveouts prev) :
    propagatePrevs current prevs (liveouts, finished) = (liveouts, finished) := by
  induction prevs with
  | nil => rfl
  | cons prev prevs ih =>
    rw [List.forall_mem_cons] at closed
    have unchanged := Arrays.appendallu_unchanged.mpr closed.1
    rw [propagatePrevs, Arrays.appendallu_eq closed.1, unchanged, update_eq_self, Bool.and_true]
    exact ih closed.2

theorem propagatePrevs_same (quiet : (propagatePrevs current prevs (liveouts, finished)).2 = true) :
    finished = true ∧ (propagatePrevs current prevs (liveouts, finished)).1 = liveouts := by
  induction prevs generalizing liveouts finished with
  | nil => exact ⟨quiet, rfl⟩
  | cons prev prevs ih =>
    rw [propagatePrevs] at quiet ⊢
    obtain ⟨still, same⟩ := ih quiet
    rw [Bool.and_eq_true] at still
    have inside := Arrays.appendallu_unchanged.mp still.2
    rw [Arrays.appendallu_eq inside, update_eq_self] at same ⊢
    exact ⟨still.1, same⟩

/-! ## Blocks -/

/-- What is live at the start of the block, by the set at its end. -/
def inflow (program : Program) (bb : Nat) (st : State) : List Vreg :=
  Arrays.removeall (before program (st.liveouts bb) (program.hops bb))
    ((program.phis bb).map Prod.fst)

theorem mem_inflow {bb : Nat} {st : State} (once : (st.liveouts bb).Nodup) :
    v ∈ inflow program bb st ↔
      v ∈ before program (st.liveouts bb) (program.hops bb) ∧
        v ∉ (program.phis bb).map Prod.fst :=
  Arrays.mem_removeall (nodup_before once _)

structure Closed (program : Program) (bb : Nat) (st : State) : Prop where
  throughs : ∀ x v, Added program (st.liveouts bb) x v (program.hops bb) → v ∈ st.throughs x
  liveins : ∀ v ∈ inflow program bb st, v ∈ st.liveins bb
  liveouts : ∀ prev ∈ program.prevs bb, ∀ v ∈ inflow program bb st, v ∈ st.liveouts prev

variable {bb : Nat} {st : State}

theorem propagateLiveness_eq (program : Program) (bb : Nat) (st : State) :
    propagateLiveness program bb st =
      let hops := propagateHops program (program.hops bb) (st.throughs, st.liveouts bb, true)
      let added := Arrays.appendallu (st.liveins bb) (inflow program bb st)
      let prevs := propagatePrevs (inflow program bb st) (program.prevs bb)
        (st.liveouts, hops.2.2 && added.2)
      (⟨update st.liveins bb added.1, prevs.1, hops.1⟩, prevs.2) := by
  unfold propagateLiveness inflow
  rw [← propagateHops_current st.throughs (st.liveouts bb) true (program.hops bb)]

theorem propagateLiveness_quiet (once : (st.liveouts bb).Nodup) (closed : Closed program bb st) :
    propagateLiveness program bb st = (st, true) := by
  have unchanged := Arrays.appendallu_unchanged.mpr closed.liveins
  rw [propagateLiveness_eq, propagateHops_quiet once closed.throughs]
  dsimp only
  rw [Arrays.appendallu_eq closed.liveins, unchanged, update_eq_self,
    propagatePrevs_quiet closed.liveouts]
  rfl

theorem propagateLiveness_same (quiet : (propagateLiveness program bb st).2 = true) :
    (propagateLiveness program bb st).1 = st := by
  rw [propagateLiveness_eq] at quiet ⊢
  dsimp only at quiet ⊢
  obtain ⟨still, liveouts⟩ := propagatePrevs_same quiet
  rw [Bool.and_eq_true] at still
  have inside := Arrays.appendallu_unchanged.mp still.2
  rw [liveouts, (propagateHops_same still.1).2, Arrays.appendallu_eq inside, update_eq_self]

variable {v : Vreg}

theorem mem_liveins {other : Nat} :
    v ∈ (propagateLiveness program bb st).1.liveins other ↔
      v ∈ st.liveins other ∨ other = bb ∧ v ∈ inflow program bb st := by
  rw [propagateLiveness_eq]
  dsimp only
  by_cases same : other = bb
  · subst same
    rw [update_self, Arrays.mem_appendallu, and_iff_right rfl]
  · rw [update_of_ne same, or_iff_left]
    rintro ⟨same', _⟩
    exact same same'

theorem mem_liveouts {other : Nat} :
    v ∈ (propagateLiveness program bb st).1.liveouts other ↔
      v ∈ st.liveouts other ∨ other ∈ program.prevs bb ∧ v ∈ inflow program bb st := by
  rw [propagateLiveness_eq]
  exact mem_propagatePrevs

theorem mem_throughs (once : (st.liveouts bb).Nodup) {hop : Nat} :
    v ∈ (propagateLiveness program bb st).1.throughs hop ↔
      v ∈ st.throughs hop ∨ Added program (st.liveouts bb) hop v (program.hops bb) := by
  exact mem_propagateHops once

theorem nodup_liveouts (once : ∀ other, (st.liveouts other).Nodup) (other : Nat) :
    ((propagateLiveness program bb st).1.liveouts other).Nodup := by
  exact nodup_propagatePrevs once other

theorem propagateLiveness_closed (once : (st.liveouts bb).Nodup)
    (quiet : (propagateLiveness program bb st).2 = true) : Closed program bb st := by
  have same := propagateLiveness_same quiet
  refine ⟨?_, ?_, ?_⟩
  · intro hop v added
    rw [← same]
    exact (mem_throughs once).mpr (Or.inr added)
  · intro v inside
    rw [← same]
    exact mem_liveins.mpr (Or.inr ⟨rfl, inside⟩)
  · intro prev edge v inside
    rw [← same]
    exact mem_liveouts.mpr (Or.inr ⟨edge, inside⟩)

end AckFormal.Mcg.LivenessSteps
