import AckFormal.Mcg.PhiGroups

/-!
# The partition into phi congruence groups

The pass starts a group at the first edge that is left, until there is none.
The recursion ends because each call for another register has taken out an edge.
-/

namespace AckFormal.Mcg.PhiPartition

open AckFormal.Data PhiGroups PhiConnectivity
open RegisterAllocator (Vreg)
open List (forall_mem_append forall_mem_nil forall_mem_singleton mem_cons_self not_mem_nil)

/-! ## Fuel -/

structure Enough (program : Program) (fuel : Nat) : Prop where
  associate : ∀ {c vreg st}, 2 * st.phimap.length + 2 ≤ fuel →
    associate program fuel c vreg st ≠ .error .fuel
  leftLoop : ∀ {c vreg st}, vreg ∈ c.vregs → 2 * st.phimap.length + 1 ≤ fuel →
    leftLoop program fuel c vreg st ≠ .error .fuel
  rightLoop : ∀ {c vreg st}, vreg ∈ c.vregs → 2 * st.phimap.length + 1 ≤ fuel →
    rightLoop program fuel c vreg st ≠ .error .fuel

theorem enter_ne_fuel (program : Program) (c : Group) (vreg : Vreg) (st : State) :
    enter program c vreg st ≠ .error .fuel := by
  intro run
  unfold enter at run
  dsimp only at run
  split at run
  next => cases run
  next =>
    split at run
    all_goals
      split at run
      all_goals cases run

theorem length_remove {map : List (Vreg × Vreg)} {left right : Vreg}
    (member : (left, right) ∈ map) : (Pmap.remove map left right).length + 1 = map.length := by
  unfold Pmap.remove
  rw [List.length_erase_of_mem member]
  exact Nat.sub_add_cancel (List.length_pos_of_mem member)

variable {program : Program} {fuel number : Nat} {c : Group} {vreg u : Vreg} {st : State}
  {groups : List Group}

theorem Enough.associate_succ (enough : Enough program fuel)
    (size : 2 * st.phimap.length + 2 ≤ fuel + 1) :
    PhiGroups.associate program (fuel + 1) c vreg st ≠ .error .fuel := by
  intro run
  rw [PhiGroups.associate] at run
  split at run
  next failure entered =>
    cases run
    exact enter_ne_fuel program c vreg st entered
  next c₁ st₁ entered =>
    obtain ⟨_, vregs, rfl⟩ := enter_ok entered
    have member : vreg ∈ c₁.vregs := by
      rw [vregs]
      exact Arrays.mem_appendu.mpr (Or.inr rfl)
    split at run
    next failure left =>
      cases run
      refine enough.leftLoop member ?_ left
      exact Nat.le_of_succ_le_succ size
    next c₂ st₂ left =>
      have walked := ((calls program fuel).leftLoop member left).1
      have fewer : st₂.phimap.length ≤ st.phimap.length := walked.remaining.length_le
      refine enough.rightLoop (walked.kept vreg member) ?_ run
      omega

section

variable (enough : Enough program fuel) (member : vreg ∈ c.vregs)
  (size : 2 * st.phimap.length + 1 ≤ fuel + 1)
include enough member size

theorem Enough.leftLoop_succ :
    PhiGroups.leftLoop program (fuel + 1) c vreg st ≠ .error .fuel := by
  intro run
  rw [PhiGroups.leftLoop] at run
  split at run
  next => cases run
  next child found =>
    have fewer := length_remove (Pmap.mem_of_findleft found)
    split at run
    next failure called =>
      cases run
      refine enough.associate ?_ called
      dsimp only
      omega
    next c₁ st₁ called =>
      have walked := ((calls program fuel).associate called).1
      have shorter := walked.remaining.length_le
      dsimp only at shorter
      refine enough.leftLoop (walked.kept vreg member) ?_ run
      omega

theorem Enough.rightLoop_succ :
    PhiGroups.rightLoop program (fuel + 1) c vreg st ≠ .error .fuel := by
  intro run
  rw [PhiGroups.rightLoop] at run
  split at run
  next => cases run
  next child found =>
    have fewer := length_remove (Pmap.mem_of_findright found)
    split at run
    next failure called =>
      cases run
      refine enough.associate ?_ called
      dsimp only
      omega
    next c₁ st₁ called =>
      have walked := ((calls program fuel).associate called).1
      have shorter := walked.remaining.length_le
      dsimp only at shorter
      refine enough.rightLoop (walked.kept vreg member) ?_ run
      omega

end

theorem enough (program : Program) (fuel : Nat) : Enough program fuel := by
  induction fuel with
  | zero =>
    refine ⟨?_, ?_, ?_⟩
    · intro c vreg st size
      cases size
    · intro c vreg st _ size
      cases size
    · intro c vreg st _ size
      cases size
  | succ fuel ih => exact ⟨ih.associate_succ, ih.leftLoop_succ, ih.rightLoop_succ⟩

/-! ## Types -/

/-- The types after the first assignment of `update_vreg_types`. -/
theorem updateVregTypes_cons (c : Group) (vreg : Vreg) (vregs : List Vreg)
    (type : Vreg → UInt32) :
    ∃ given : Vreg → UInt32, (∀ u, u ≠ vreg ∨ type u ≠ 0 → given u = type u) ∧
      updateVregTypes c (vreg :: vregs) type =
        if given vreg = c.type ∧ given vreg ≠ 0 then updateVregTypes c vregs given
        else .error .assertion := by
  refine ⟨if type vreg = 0 then Function.update type vreg c.type else type, ?_, rfl⟩
  intro u kept
  split
  next unset =>
    apply Function.update_of_ne
    rintro rfl
    cases kept with
    | inl differs => exact differs rfl
    | inr set => exact set unset
  next => rfl

theorem updateVregTypes_ne_fuel (c : Group) (vregs : List Vreg) (type : Vreg → UInt32) :
    updateVregTypes c vregs type ≠ .error .fuel := by
  induction vregs generalizing type with
  | nil =>
    intro run
    cases run
  | cons vreg vregs ih =>
    obtain ⟨given, _, eq⟩ := updateVregTypes_cons c vreg vregs type
    rw [eq]
    split
    next => exact ih given
    next =>
      intro run
      cases run

section

variable {vregs : List Vreg} {type type' : Vreg → UInt32}
  (run : updateVregTypes c vregs type = .ok type')
include run

/-- Other registers keep their types, and a type that has been set stays. -/
theorem updateVregTypes_kept (kept : u ∉ vregs ∨ type u ≠ 0) :
    type' u = type u := by
  induction vregs generalizing type with
  | nil =>
    cases run
    rfl
  | cons vreg vregs ih =>
    obtain ⟨given, same, eq⟩ := updateVregTypes_cons c vreg vregs type
    rw [eq] at run
    have first : given u = type u := by
      apply same
      refine kept.imp_left ?_
      rintro outside rfl
      exact outside mem_cons_self
    split at run
    next =>
      rw [← first]
      apply ih run
      rw [first]
      refine kept.imp_left ?_
      intro outside member
      exact outside (List.mem_cons_of_mem vreg member)
    next => cases run

/-- The assertions hold for every register of the group. -/
theorem updateVregTypes_type (member : u ∈ vregs) :
    type' u = c.type ∧ c.type ≠ 0 := by
  induction vregs generalizing type with
  | nil => cases member
  | cons vreg vregs ih =>
    obtain ⟨given, _, eq⟩ := updateVregTypes_cons c vreg vregs type
    rw [eq] at run
    split at run
    next checked =>
      cases member with
      | head =>
        rw [updateVregTypes_kept run (Or.inr checked.2)]
        exact ⟨checked.1, checked.1 ▸ checked.2⟩
      | tail _ member => exact ih run member
    next => cases run

end

/-! ## Groups -/

/-- The groups made so far are connected, and apart from the edges that are
left. -/
structure Grouped (edges : List (Vreg × Vreg)) (groups : List Group) (number : Nat) (st : State) :
    Prop where
  remaining : ∀ edge ∈ st.phimap, edge ∈ edges
  taken : ∀ edge ∈ edges, edge ∈ st.phimap ∨ ∃ c ∈ groups, edge.1 ∈ c.vregs ∧ edge.2 ∈ c.vregs
  bare : ∀ c ∈ groups, ∀ u ∈ c.vregs, ¬ OnEdge st.phimap u
  linked : ∀ c ∈ groups, ∀ u ∈ c.vregs, ∀ w ∈ c.vregs, Connected edges u w
  occurs : ∀ c ∈ groups, ∀ u ∈ c.vregs, OnEdge edges u
  nodup : ∀ c ∈ groups, c.vregs.Nodup
  below : ∀ c ∈ groups, c.id < number
  distinct : (groups.map Group.id).Nodup
  marked : ∀ c ∈ groups, ∀ u ∈ c.vregs, st.congruence u = some c.id
  typed : ∀ c ∈ groups, ∀ u ∈ c.vregs, st.type u = c.type ∧ c.type ≠ 0

theorem Grouped.start (edges : List (Vreg × Vreg)) (number : Nat)
    (congruence : Vreg → Option Nat) (type : Vreg → UInt32) :
    Grouped edges [] number ⟨edges, congruence, type⟩ where
  remaining _ member := member
  taken _ member := Or.inl member
  bare := forall_mem_nil _
  linked := forall_mem_nil _
  occurs := forall_mem_nil _
  nodup := forall_mem_nil _
  below := forall_mem_nil _
  distinct := List.nodup_nil
  marked := forall_mem_nil _
  typed := forall_mem_nil _

variable {edges : List (Vreg × Vreg)}

/-- A new group that starts on an edge that is left has no register of an earlier
group: its registers are on edges that were left, and those of the earlier group
are on none. -/
theorem Grouped.apart {st' : State} {d : Group}
    (grouped : Grouped edges groups number st) (on : OnEdge st.phimap vreg)
    (walked : Walked ⟨number, [], [], 0⟩ st vreg c st') (member : d ∈ groups) (inside : u ∈ d.vregs) :
    u ∉ c.vregs := by
  intro new
  cases walked.linked u new with
  | inl earlier => cases earlier
  | inr joined => exact grouped.bare d member u inside (joined.onEdge_iff.mp on)

/-- One more group that has been walked joins those made before. -/
theorem Grouped.step {groups : List Group} {number : Nat}
    {st st' : State} {vreg : Vreg} {c : Group} {type : Vreg → UInt32}
    (grouped : Grouped edges groups number st) (on : OnEdge st.phimap vreg)
    (walked : Walked ⟨number, [], [], 0⟩ st vreg c st')
    (run : updateVregTypes c c.vregs st'.type = .ok type) :
    Grouped edges (groups ++ [c]) (number + 1) { st' with type := type } := by
  have apart {d : Group} (member : d ∈ groups) {u : Vreg} (inside : u ∈ d.vregs) :
      u ∉ c.vregs := grouped.apart on walked member inside
  have joined {u : Vreg} (member : u ∈ c.vregs) : Connected st.phimap vreg u :=
    (walked.linked u member).resolve_left not_mem_nil
  have id : c.id = number := walked.id
  refine ⟨?_, ?_, ?_, ?_, ?_, ?_, ?_, ?_, ?_, ?_⟩
  · intro edge member
    exact grouped.remaining edge (walked.remaining.subset member)
  · intro edge member
    cases grouped.taken edge member with
    | inl remains =>
      refine (walked.taken edge remains).imp_right ?_
      intro inside
      exact ⟨c, List.mem_append_right groups (List.mem_singleton.mpr rfl), inside⟩
    | inr inside =>
      obtain ⟨d, member, inside⟩ := inside
      exact Or.inr ⟨d, List.mem_append_left [c] member, inside⟩
  · rw [forall_mem_append, forall_mem_singleton]
    constructor
    · intro d member u inside remains
      exact grouped.bare d member u inside (remains.mono walked.remaining.subset)
    · intro u inside
      exact (walked.bare u inside).resolve_left not_mem_nil
  · rw [forall_mem_append, forall_mem_singleton]
    refine ⟨grouped.linked, ?_⟩
    intro u first w second
    have across : Connected st.phimap u w :=
      Relation.EqvGen.trans u vreg w (Relation.EqvGen.symm vreg u (joined first)) (joined second)
    exact across.mono grouped.remaining
  · rw [forall_mem_append, forall_mem_singleton]
    refine ⟨grouped.occurs, ?_⟩
    intro u inside
    exact ((joined inside).onEdge_iff.mp on).mono grouped.remaining
  · rw [forall_mem_append, forall_mem_singleton]
    exact ⟨grouped.nodup, walked.nodup List.nodup_nil⟩
  · rw [forall_mem_append, forall_mem_singleton, id]
    refine ⟨?_, Nat.lt_succ_self number⟩
    intro d member
    exact Nat.lt_succ_of_lt (grouped.below d member)
  · rw [List.map_append]
    refine grouped.distinct.append (List.nodup_singleton c.id) ?_
    rw [List.map_singleton, List.disjoint_singleton, List.mem_map, id]
    rintro ⟨d, member, same⟩
    exact Nat.ne_of_lt (grouped.below d member) same
  · rw [forall_mem_append, forall_mem_singleton]
    constructor
    · intro d member u inside
      rw [← grouped.marked d member u inside]
      exact walked.unmarked u (apart member inside)
    · rw [id]
      exact walked.marked (forall_mem_nil _)
  · rw [forall_mem_append, forall_mem_singleton]
    constructor
    · intro d member u inside
      dsimp only
      rw [updateVregTypes_kept run (Or.inl (apart member inside)), walked.type]
      exact grouped.typed d member u inside
    · intro u inside
      exact updateVregTypes_type run inside

theorem associateGroups_grouped {groups' : List Group} {st' : State}
    (grouped : Grouped edges groups number st)
    (run : associateGroups program fuel number groups st = .ok (groups', st')) :
    st'.phimap = [] ∧ ∃ last, Grouped edges groups' last st' := by
  induction fuel generalizing groups number st with
  | zero => cases run
  | succ fuel ih =>
    rw [associateGroups] at run
    split at run
    next empty =>
      cases run
      exact ⟨empty, number, grouped⟩
    next first rest shape =>
      split at run
      next => cases run
      next c st₁ called =>
        split at run
        next => cases run
        next type updated =>
          have on : OnEdge st.phimap first.1 := by
            rw [shape]
            exact Or.inl ⟨first.2, mem_cons_self⟩
          have walked := ((calls program fuel).associate called).1
          exact ih (grouped.step on walked updated) run

/-- That much fuel is enough. -/
theorem associateGroups_ne_fuel (program : Program) (size : 2 * st.phimap.length + 3 ≤ fuel) :
    associateGroups program fuel number groups st ≠ .error .fuel := by
  induction fuel generalizing groups number st with
  | zero => cases size
  | succ fuel ih =>
    intro run
    rw [associateGroups] at run
    split at run
    next => cases run
    next first rest shape =>
      split at run
      next failure called =>
        cases run
        exact (enough program fuel).associate (Nat.le_of_succ_le_succ size) called
      next c st₁ called =>
        split at run
        next failure updated =>
          cases run
          exact updateVregTypes_ne_fuel c c.vregs st₁.type updated
        next type updated =>
          obtain ⟨walked, _, off⟩ := (calls program fuel).associate called
          have fewer : st₁.phimap.length < st.phimap.length := by
            refine Nat.lt_of_le_of_ne walked.remaining.length_le ?_
            intro same
            apply off
            rw [walked.remaining.eq_of_length same, shape]
            exact Or.inl ⟨first.2, mem_cons_self⟩
          refine ih ?_ run
          dsimp only
          omega

/-! ## The pass -/

def Wired (program : Program) (vreg operand : Vreg) : Prop :=
  ∃ phis ∈ program.phis, ∃ ir, (vreg, ir) ∈ phis ∧ program.result ir = operand

def Occurs (program : Program) (vreg : Vreg) : Prop :=
  (∃ operand, Wired program vreg operand) ∨ ∃ result, Wired program result vreg

theorem mem_makePhimap (program : Program) (left right : Vreg) :
    (left, right) ∈ makePhimap program ↔ Wired program left right := by
  have along (phis : List (Vreg × Nat)) (map : List (Vreg × Vreg)) :
      (left, right) ∈ phis.foldl (fun map phi => Pmap.add map phi.1 (program.result phi.2)) map ↔
        (left, right) ∈ map ∨ ∃ ir, (left, ir) ∈ phis ∧ program.result ir = right := by
    induction phis generalizing map with
    | nil => simp
    | cons phi phis ih =>
      rw [List.foldl_cons, ih, Pmap.mem_add, or_assoc]
      apply or_congr_right
      constructor
      · rintro (same | ⟨ir, member, result⟩)
        · cases same
          exact ⟨phi.2, mem_cons_self, rfl⟩
        · exact ⟨ir, List.mem_cons_of_mem phi member, result⟩
      · rintro ⟨ir, member, result⟩
        cases member with
        | head => exact Or.inl (by rw [result])
        | tail _ member => exact Or.inr ⟨ir, member, result⟩
  rw [makePhimap, along]
  constructor
  · rintro (member | ⟨ir, member, result⟩)
    · cases member
    · obtain ⟨phis, block, member⟩ := List.mem_flatten.mp member
      exact ⟨phis, block, ir, member, result⟩
  · rintro ⟨phis, block, ir, member, result⟩
    exact Or.inr ⟨ir, List.mem_flatten.mpr ⟨phis, block, member⟩, result⟩

theorem connected_makePhimap (program : Program) :
    Connected (makePhimap program) = Relation.EqvGen (Wired program) := by
  unfold Connected
  congr 1
  funext left right
  exact propext (mem_makePhimap program left right)

theorem onEdge_makePhimap (program : Program) (vreg : Vreg) :
    OnEdge (makePhimap program) vreg ↔ Occurs program vreg := by
  unfold OnEdge Occurs
  simp only [mem_makePhimap]

/-- What the pass leaves: the groups are the connected components of the phis. -/
structure Partitioned (program : Program) (groups : List Group) (st : State) : Prop where
  congruent : ∀ u w, Occurs program u → Occurs program w →
    (st.congruence u = st.congruence w ↔ Relation.EqvGen (Wired program) u w)
  belongs : ∀ u, Occurs program u → ∃! c, c ∈ groups ∧ u ∈ c.vregs
  pointer : ∀ c ∈ groups, ∀ u ∈ c.vregs, st.congruence u = some c.id
  occurs : ∀ c ∈ groups, ∀ u ∈ c.vregs, Occurs program u
  distinct : (groups.map Group.id).Nodup
  once : ∀ c ∈ groups, c.vregs.Nodup
  typed : ∀ c ∈ groups, ∀ u ∈ c.vregs, st.type u = c.type ∧ c.type ≠ 0

/-- When no edge is left every edge lies inside one group. -/
theorem Grouped.partitioned (grouped : Grouped (makePhimap program) groups number st)
    (empty : st.phimap = []) : Partitioned program groups st := by
  have within (edge : Vreg × Vreg) (member : edge ∈ makePhimap program) :
      ∃ c ∈ groups, edge.1 ∈ c.vregs ∧ edge.2 ∈ c.vregs := by
    refine (grouped.taken edge member).resolve_left ?_
    rw [empty]
    exact not_mem_nil
  have found {u : Vreg} (occurs : Occurs program u) : ∃ c ∈ groups, u ∈ c.vregs := by
    rcases (onEdge_makePhimap program u).mpr occurs with ⟨right, member⟩ | ⟨left, member⟩
    · obtain ⟨c, group, inside, _⟩ := within _ member
      exact ⟨c, group, inside⟩
    · obtain ⟨c, group, _, inside⟩ := within _ member
      exact ⟨c, group, inside⟩
  have same {c d : Group} (first : c ∈ groups) (second : d ∈ groups) (ids : c.id = d.id) : c = d :=
    List.inj_on_of_nodup_map grouped.distinct first second ids
  refine ⟨?_, ?_, grouped.marked, ?_, grouped.distinct, grouped.nodup, grouped.typed⟩
  · intro u w occursU occursW
    rw [← connected_makePhimap]
    constructor
    · intro equal
      obtain ⟨c, groupC, insideC⟩ := found occursU
      obtain ⟨d, groupD, insideD⟩ := found occursW
      rw [grouped.marked c groupC u insideC, grouped.marked d groupD w insideD] at equal
      obtain rfl := same groupC groupD (Option.some.inj equal)
      exact grouped.linked c groupC u insideC w insideD
    · apply Connected.agree
      intro left right member
      obtain ⟨c, group, insideLeft, insideRight⟩ := within _ member
      exact (grouped.marked c group left insideLeft).trans (grouped.marked c group right insideRight).symm
  · intro u occurs
    obtain ⟨c, group, inside⟩ := found occurs
    refine ⟨c, ⟨group, inside⟩, ?_⟩
    rintro d ⟨other, insideOther⟩
    have marks := (grouped.marked d other u insideOther).symm.trans (grouped.marked c group u inside)
    exact same other group (Option.some.inj marks)
  · intro c group u inside
    exact (onEdge_makePhimap program u).mp (grouped.occurs c group u inside)

/-- A register that two phis share, a phi cycle and a phi apart from them; the
registers 3, 4 and 6 are defined, with the types 4 and 8. -/
def twoGroups : Program where
  phis := [[(1, 3), (1, 2)], [], [(2, 1), (2, 4)], [(5, 6)]]
  result ir := ir
  defined vreg := if vreg < 3 ∨ vreg = 5 then none else some vreg

def twoTypes (vreg : Vreg) : UInt32 :=
  if vreg = 6 then 8 else if vreg < 3 ∨ vreg = 5 then 0 else 4

theorem twoGroups_vregs :
    (findPhiCongruenceGroups twoGroups 13 0 (fun _ => none) twoTypes).map
      (fun result => result.1.map Group.vregs) = .ok [[1, 3, 2, 4], [5, 6]] := by
  decide +kernel

/-- The pass ends for every set of phis, and when it returns the groups are the
connected components. -/
theorem findPhiCongruenceGroups_partitions (program : Program) (number : Nat)
    (congruence : Vreg → Option Nat) (type : Vreg → UInt32) :
    findPhiCongruenceGroups program (2 * (makePhimap program).length + 3) number congruence type ≠
        .error .fuel ∧
      ∀ fuel groups st,
        findPhiCongruenceGroups program fuel number congruence type = .ok (groups, st) →
          Partitioned program groups st := by
  constructor
  · exact associateGroups_ne_fuel program (Nat.le_refl _)
  · intro fuel groups st returned
    obtain ⟨empty, last, grouped⟩ :=
      associateGroups_grouped (Grouped.start (makePhimap program) number congruence type) returned
    exact grouped.partitioned empty

theorem twoGroups_partitioned :
    ∃ groups st, findPhiCongruenceGroups twoGroups 13 0 (fun _ => none) twoTypes = .ok (groups, st) ∧
      groups.map Group.vregs = [[1, 3, 2, 4], [5, 6]] ∧ Partitioned twoGroups groups st := by
  have vregs := twoGroups_vregs
  cases returned : findPhiCongruenceGroups twoGroups 13 0 (fun _ => none) twoTypes with
  | error failure =>
    rw [returned] at vregs
    cases vregs
  | ok result =>
    rw [returned] at vregs
    refine ⟨result.1, result.2, rfl, Except.ok.inj vregs, ?_⟩
    exact (findPhiCongruenceGroups_partitions twoGroups 0 (fun _ => none) twoTypes).2 13 _ _ returned

end AckFormal.Mcg.PhiPartition
