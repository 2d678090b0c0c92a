import AckFormal.Data.Arrays
import AckFormal.Mcg.RegisterAllocator
import Mathlib.Logic.Relation

/-!
# Phi congruence groups

`pass_find_phi_congruence_groups` puts virtual registers that are connected by
phis into one group.  It collects the edges in a pair map and walks through the
map in both directions, taking out every edge it follows.
-/

namespace AckFormal.Mcg.PhiGroups

open AckFormal.Data RegisterAllocator

/-- What the pass reads: the registers imported by the phis of the blocks in
preorder, with the IR of each operand, the register that holds the result of an
IR, and the hop that defines a register. -/
structure Program where
  phis : List (List (Vreg × Nat))
  result : Nat → Vreg
  defined : Vreg → Option Nat

/-- `struct phicongruence`; the address of a group is its `id`. -/
structure Group where
  id : Nat
  vregs : List Vreg
  definitions : List Nat
  type : UInt32

/-- The global map of edges, and the fields of the registers the pass writes. -/
structure State where
  phimap : List (Vreg × Vreg)
  congruence : Vreg → Option Nat
  type : Vreg → UInt32

/-- Why the pass does not return: a call of `fatal`, a failed assertion, or a
recursion deeper than the fuel. -/
inductive Failure where
  | fatal
  | assertion
  | fuel
  deriving DecidableEq

def makePhimap (program : Program) : List (Vreg × Vreg) :=
  program.phis.flatten.foldl (fun map phi => Pmap.add map phi.1 (program.result phi.2)) []

def enter (program : Program) (c : Group) (vreg : Vreg) (st : State) :
    Except Failure (Group × State) :=
  let st := { st with congruence := Function.update st.congruence vreg (some c.id) }
  let c := { c with vregs := (Arrays.appendu c.vregs vreg).1 }
  match program.defined vreg with
  | none => .ok (c, st)
  | some hop =>
    let c := if c.type = 0 then { c with type := st.type vreg } else c
    if c.type ≠ st.type vreg then .error .fatal
    else .ok ({ c with definitions := (Arrays.appendu c.definitions hop).1 }, st)

mutual

def associate (program : Program) : Nat → Group → Vreg → State → Except Failure (Group × State)
  | 0, _, _, _ => .error .fuel
  | fuel + 1, c, vreg, st =>
    match enter program c vreg st with
    | .error failure => .error failure
    | .ok (c, st) =>
      match leftLoop program fuel c vreg st with
      | .error failure => .error failure
      | .ok (c, st) => rightLoop program fuel c vreg st

def leftLoop (program : Program) : Nat → Group → Vreg → State → Except Failure (Group × State)
  | 0, _, _, _ => .error .fuel
  | fuel + 1, c, vreg, st =>
    match Pmap.findleft st.phimap vreg with
    | none => .ok (c, st)
    | some child =>
      match associate program fuel c child
          { st with phimap := Pmap.remove st.phimap vreg child } with
      | .error failure => .error failure
      | .ok (c, st) => leftLoop program fuel c vreg st

def rightLoop (program : Program) : Nat → Group → Vreg → State → Except Failure (Group × State)
  | 0, _, _, _ => .error .fuel
  | fuel + 1, c, vreg, st =>
    match Pmap.findright st.phimap vreg with
    | none => .ok (c, st)
    | some child =>
      match associate program fuel c child
          { st with phimap := Pmap.remove st.phimap child vreg } with
      | .error failure => .error failure
      | .ok (c, st) => rightLoop program fuel c vreg st

end

def updateVregTypes (c : Group) : List Vreg → (Vreg → UInt32) → Except Failure (Vreg → UInt32)
  | [], type => .ok type
  | vreg :: vregs, type =>
    let type := if type vreg = 0 then Function.update type vreg c.type else type
    if type vreg = c.type ∧ type vreg ≠ 0 then updateVregTypes c vregs type
    else .error .assertion

/-- `associate_groups`, with the groups made so far; `number` is the static
counter. -/
def associateGroups (program : Program) :
    Nat → Nat → List Group → State → Except Failure (List Group × State)
  | 0, _, _, _ => .error .fuel
  | fuel + 1, number, groups, st =>
    match st.phimap with
    | [] => .ok (groups, st)
    | first :: _ =>
      match associate program fuel ⟨number, [], [], 0⟩ first.1 st with
      | .error failure => .error failure
      | .ok (c, st) =>
        match updateVregTypes c c.vregs st.type with
        | .error failure => .error failure
        | .ok type =>
          associateGroups program fuel (number + 1) (groups ++ [c]) { st with type := type }

def findPhiCongruenceGroups (program : Program) (fuel number : Nat)
    (congruence : Vreg → Option Nat) (type : Vreg → UInt32) : Except Failure (List Group × State) :=
  associateGroups program fuel number [] ⟨makePhimap program, congruence, type⟩

end AckFormal.Mcg.PhiGroups

/-!
## Groups of connected registers

The recursion of the phi congruence groups takes out every edge it follows.  When
a call returns, the registers it added are on no edge any more, and only
registers that were connected to the first one have been added.  A later group
therefore cannot reach a register of an earlier one, and the groups are the
connected components of the phis.
-/

namespace AckFormal.Mcg.PhiConnectivity

open AckFormal.Data PhiGroups
open RegisterAllocator (Vreg)

def Connected (map : List (Vreg × Vreg)) : Vreg → Vreg → Prop :=
  Relation.EqvGen fun left right => (left, right) ∈ map

def OnEdge (map : List (Vreg × Vreg)) (vreg : Vreg) : Prop :=
  (∃ right, (vreg, right) ∈ map) ∨ ∃ left, (left, vreg) ∈ map

variable {map : List (Vreg × Vreg)} {u w vreg : Vreg} {c c' : Group} {st st' : State}
  {program : Program} {fuel : Nat}

theorem Connected.mono {less : List (Vreg × Vreg)} (inside : ∀ edge ∈ less, edge ∈ map)
    (joined : Connected less u w) : Connected map u w :=
  Relation.EqvGen.mono (fun left right member => inside (left, right) member) u w joined

theorem Connected.onEdge_iff (joined : Connected map u w) : OnEdge map u ↔ OnEdge map w := by
  induction joined with
  | rel left right member => exact ⟨fun _ => Or.inr ⟨left, member⟩, fun _ => Or.inl ⟨right, member⟩⟩
  | refl u => exact Iff.rfl
  | symm u w _ ih => exact ih.symm
  | trans u v w _ _ first second => exact first.trans second

theorem Connected.agree {α : Type} {value : Vreg → α}
    (edges : ∀ left right, (left, right) ∈ map → value left = value right)
    (joined : Connected map u w) : value u = value w := by
  induction joined with
  | rel left right member => exact edges left right member
  | refl u => rfl
  | symm u w _ ih => exact ih.symm
  | trans u v w _ _ first second => exact first.trans second

theorem OnEdge.mono {less : List (Vreg × Vreg)} (inside : ∀ edge ∈ less, edge ∈ map)
    (on : OnEdge less vreg) : OnEdge map vreg := by
  cases on with
  | inl on =>
    obtain ⟨right, member⟩ := on
    exact Or.inl ⟨right, inside _ member⟩
  | inr on =>
    obtain ⟨left, member⟩ := on
    exact Or.inr ⟨left, inside _ member⟩

/-! ## One call -/

/-- What a call that is given `vreg` leaves of the group and the state. -/
structure Walked (c : Group) (st : State) (vreg : Vreg) (c' : Group) (st' : State) : Prop where
  id : c'.id = c.id
  kept : ∀ u ∈ c.vregs, u ∈ c'.vregs
  nodup : c.vregs.Nodup → c'.vregs.Nodup
  remaining : st'.phimap.Sublist st.phimap
  taken : ∀ edge ∈ st.phimap, edge ∈ st'.phimap ∨ edge.1 ∈ c'.vregs ∧ edge.2 ∈ c'.vregs
  bare : ∀ u ∈ c'.vregs, u ∈ c.vregs ∨ ¬ OnEdge st'.phimap u
  linked : ∀ u ∈ c'.vregs, u ∈ c.vregs ∨ Connected st.phimap vreg u
  marked : (∀ u ∈ c.vregs, st.congruence u = some c.id) →
    ∀ u ∈ c'.vregs, st'.congruence u = some c.id
  unmarked : ∀ u, u ∉ c'.vregs → st'.congruence u = st.congruence u
  type : st'.type = st.type

theorem Walked.refl (c : Group) (st : State) (vreg : Vreg) : Walked c st vreg c st where
  id := rfl
  kept _ member := member
  nodup once := once
  remaining := List.Sublist.refl _
  taken _ member := Or.inl member
  bare _ member := Or.inl member
  linked _ member := Or.inl member
  marked all := all
  unmarked _ _ := rfl
  type := rfl

/-- One walk after another. -/
theorem Walked.trans {c₁ : Group} {st₁ : State} (first : Walked c st vreg c₁ st₁)
    (second : Walked c₁ st₁ vreg c' st') :
    Walked c st vreg c' st' where
  id := second.id.trans first.id
  kept u member := second.kept u (first.kept u member)
  nodup once := second.nodup (first.nodup once)
  remaining := second.remaining.trans first.remaining
  taken edge member := by
    cases first.taken edge member with
    | inl remains => exact second.taken edge remains
    | inr inside => exact Or.inr ⟨second.kept _ inside.1, second.kept _ inside.2⟩
  bare u member := by
    cases second.bare u member with
    | inl earlier =>
      refine (first.bare u earlier).imp_right ?_
      intro off on
      exact off (on.mono second.remaining.subset)
    | inr off => exact Or.inr off
  linked u member := by
    cases second.linked u member with
    | inl earlier => exact first.linked u earlier
    | inr joined => exact Or.inr (joined.mono first.remaining.subset)
  marked all u member := by
    rw [← first.id]
    apply second.marked _ u member
    intro w earlier
    rw [first.id]
    exact first.marked all w earlier
  unmarked u outside := by
    rw [second.unmarked u outside]
    apply first.unmarked
    intro member
    exact outside (second.kept u member)
  type := second.type.trans first.type

/-- A call for the other end of an edge that has been taken out. -/
theorem Walked.followed {child : Vreg} {edge : Vreg × Vreg} (present : edge ∈ st.phimap)
    (ends : edge = (vreg, child) ∨ edge = (child, vreg)) (member : vreg ∈ c.vregs)
    (walked : Walked c { st with phimap := Pmap.remove st.phimap edge.1 edge.2 } child c' st')
    (added : child ∈ c'.vregs) : Walked c st vreg c' st' where
  id := walked.id
  kept := walked.kept
  nodup := walked.nodup
  remaining := walked.remaining.trans List.erase_sublist
  taken other inside := by
    by_cases same : other = edge
    · have own := walked.kept vreg member
      refine Or.inr ?_
      rw [same]
      cases ends with
      | inl ends => exact ends ▸ ⟨own, added⟩
      | inr ends => exact ends ▸ ⟨added, own⟩
    · exact walked.taken other ((Pmap.mem_remove_of_ne same).mpr inside)
  bare := walked.bare
  linked u inside := by
    refine (walked.linked u inside).imp_right ?_
    intro joined
    have less : ∀ other ∈ Pmap.remove st.phimap edge.1 edge.2, other ∈ st.phimap :=
      fun _ => Pmap.mem_of_mem_remove
    refine Relation.EqvGen.trans vreg child u ?_ (joined.mono less)
    cases ends with
    | inl ends => exact Relation.EqvGen.rel vreg child (ends ▸ present)
    | inr ends => exact Relation.EqvGen.symm child vreg (Relation.EqvGen.rel child vreg (ends ▸ present))
  marked := walked.marked
  unmarked := walked.unmarked
  type := walked.type

/-- The head of the call writes the register into the group. -/
theorem enter_ok (entered : enter program c vreg st = .ok (c', st')) :
    c'.id = c.id ∧ c'.vregs = (Arrays.appendu c.vregs vreg).1 ∧
      st' = { st with congruence := Function.update st.congruence vreg (some c.id) } := by
  unfold enter at entered
  dsimp only at entered
  split at entered
  next =>
    cases entered
    exact ⟨rfl, rfl, rfl⟩
  next hop _ =>
    split at entered
    all_goals
      split at entered
      next => cases entered
      next =>
        cases entered
        exact ⟨rfl, rfl, rfl⟩

/-- A call whose loops have left no edge at the register. -/
theorem Walked.entered {c₁ : Group} {st₁ : State}
    (entered : enter program c vreg st = .ok (c₁, st₁)) (walked : Walked c₁ st₁ vreg c' st')
    (off : ¬ OnEdge st'.phimap vreg) : Walked c st vreg c' st' := by
  obtain ⟨same, vregs, rfl⟩ := enter_ok entered
  have members (u : Vreg) : u ∈ c₁.vregs ↔ u ∈ c.vregs ∨ u = vreg := by
    rw [vregs]
    exact Arrays.mem_appendu
  refine ⟨walked.id.trans same, ?_, ?_, walked.remaining, walked.taken, ?_, ?_, ?_, ?_, walked.type⟩
  · intro u member
    exact walked.kept u ((members u).mpr (Or.inl member))
  · intro once
    apply walked.nodup
    rw [vregs]
    exact Arrays.nodup_appendu once vreg
  · intro u member
    rcases walked.bare u member with earlier | bare
    · refine ((members u).mp earlier).imp_right ?_
      rintro rfl
      exact off
    · exact Or.inr bare
  · intro u member
    rcases walked.linked u member with earlier | joined
    · refine ((members u).mp earlier).imp_right ?_
      rintro rfl
      exact Relation.EqvGen.refl u
    · exact Or.inr joined
  · intro all u member
    rw [← same]
    refine walked.marked ?_ u member
    intro w earlier
    dsimp only
    by_cases new : w = vreg
    · rw [new, Function.update_self, same]
    · rw [Function.update_of_ne new, same]
      exact all w (((members w).mp earlier).resolve_right new)
  · intro u outside
    rw [walked.unmarked u outside]
    apply Function.update_of_ne
    intro new
    exact outside (walked.kept u ((members u).mpr (Or.inr new)))

structure Calls (program : Program) (fuel : Nat) : Prop where
  associate : ∀ {c vreg st c' st'}, associate program fuel c vreg st = .ok (c', st') →
    Walked c st vreg c' st' ∧ vreg ∈ c'.vregs ∧ ¬ OnEdge st'.phimap vreg
  leftLoop : ∀ {c vreg st c' st'}, vreg ∈ c.vregs →
    leftLoop program fuel c vreg st = .ok (c', st') →
    Walked c st vreg c' st' ∧ ∀ right, (vreg, right) ∉ st'.phimap
  rightLoop : ∀ {c vreg st c' st'}, vreg ∈ c.vregs →
    rightLoop program fuel c vreg st = .ok (c', st') →
    Walked c st vreg c' st' ∧ ∀ left, (left, vreg) ∉ st'.phimap

theorem Calls.associate_succ (calls : Calls program fuel)
    (run : PhiGroups.associate program (fuel + 1) c vreg st = .ok (c', st')) :
    Walked c st vreg c' st' ∧ vreg ∈ c'.vregs ∧ ¬ OnEdge st'.phimap vreg := by
  rw [PhiGroups.associate] at run
  split at run
  next => cases run
  next c₁ st₁ entered =>
    have member : vreg ∈ c₁.vregs := by
      rw [(enter_ok entered).2.1]
      exact Arrays.mem_appendu.mpr (Or.inr rfl)
    split at run
    next => cases run
    next c₂ st₂ left =>
      obtain ⟨walkedLeft, noRight⟩ := calls.leftLoop member left
      obtain ⟨walkedRight, noLeft⟩ := calls.rightLoop (walkedLeft.kept vreg member) run
      have off : ¬ OnEdge st'.phimap vreg := by
        rintro (⟨right, remains⟩ | ⟨left, remains⟩)
        · exact noRight right (walkedRight.remaining.subset remains)
        · exact noLeft left remains
      have walked := walkedLeft.trans walkedRight
      exact ⟨Walked.entered entered walked off, walked.kept vreg member, off⟩

theorem Calls.leftLoop_succ (calls : Calls program fuel) (member : vreg ∈ c.vregs)
    (run : PhiGroups.leftLoop program (fuel + 1) c vreg st = .ok (c', st')) :
    Walked c st vreg c' st' ∧ ∀ right, (vreg, right) ∉ st'.phimap := by
  rw [PhiGroups.leftLoop] at run
  split at run
  next absent =>
    cases run
    exact ⟨Walked.refl c st vreg, Pmap.findleft_eq_none.mp absent⟩
  next child found =>
    split at run
    next => cases run
    next c₁ st₁ called =>
      obtain ⟨inner, added, _⟩ := calls.associate called
      have first : Walked c st vreg c₁ st₁ :=
        Walked.followed (Pmap.mem_of_findleft found) (Or.inl rfl) member inner added
      obtain ⟨rest, none⟩ := calls.leftLoop (first.kept vreg member) run
      exact ⟨first.trans rest, none⟩

theorem Calls.rightLoop_succ (calls : Calls program fuel) (member : vreg ∈ c.vregs)
    (run : PhiGroups.rightLoop program (fuel + 1) c vreg st = .ok (c', st')) :
    Walked c st vreg c' st' ∧ ∀ left, (left, vreg) ∉ st'.phimap := by
  rw [PhiGroups.rightLoop] at run
  split at run
  next absent =>
    cases run
    exact ⟨Walked.refl c st vreg, Pmap.findright_eq_none.mp absent⟩
  next child found =>
    split at run
    next => cases run
    next c₁ st₁ called =>
      obtain ⟨inner, added, _⟩ := calls.associate called
      have first : Walked c st vreg c₁ st₁ :=
        Walked.followed (Pmap.mem_of_findright found) (Or.inr rfl) member inner added
      obtain ⟨rest, none⟩ := calls.rightLoop (first.kept vreg member) run
      exact ⟨first.trans rest, none⟩

theorem calls (program : Program) (fuel : Nat) : Calls program fuel := by
  induction fuel with
  | zero =>
    refine ⟨?_, ?_, ?_⟩
    · intro c vreg st c' st' run
      cases run
    · intro c vreg st c' st' _ run
      cases run
    · intro c vreg st c' st' _ run
      cases run
  | succ fuel ih => exact ⟨ih.associate_succ, ih.leftLoop_succ, ih.rightLoop_succ⟩

end AckFormal.Mcg.PhiConnectivity
