import AckFormal.Mcg.SplitEdges

/-!
# Contraction of the inserted blocks

Every split takes one critical edge away.  What it inserts can be contracted: the
references, successors and predecessors of the blocks there were before come back.
-/

namespace AckFormal.Mcg.EdgeContraction

open AckFormal.Data BlockIrs CriticalEdges SplitEdges

/-! ## Counting -/

def criticalFrom (proc : Procedure) : Nat → Nat
  | 0 => 0
  | u + 1 => criticalFrom proc u + (proc.block u).nexts.countP fun v => Critical proc u v

def criticalCount (proc : Procedure) : Nat := criticalFrom proc proc.count

section

variable {proc : Procedure} {source sink : Nat}

variable (edge : Edge proc source sink)
include edge

theorem critical_split {u v : Nat} (insideU : u < proc.count)
    (insideV : v < proc.count) :
    Critical (splitEdge proc source sink) u v ↔ Critical proc u v := by
  unfold Critical
  rw [edge.length_nexts insideU, edge.length_prevs insideV]

theorem not_critical_to_new (u : Nat) :
    ¬ Critical (splitEdge proc source sink) u proc.count := by
  rintro ⟨_, several⟩
  rw [edge.new] at several
  exact Nat.lt_irrefl 1 several

theorem not_critical_from_new (v : Nat) :
    ¬ Critical (splitEdge proc source sink) proc.count v := by
  rintro ⟨several, _⟩
  rw [edge.new] at several
  exact Nat.lt_irrefl 1 several

variable (critical : Critical proc source sink)
include critical

/-- A split makes the source block lose one critical edge. -/
theorem countP_split {u : Nat}
    (inside : u < proc.count) :
    (((splitEdge proc source sink).block u).nexts.countP fun v =>
        Critical (splitEdge proc source sink) u v) + (if u = source then 1 else 0) =
      (proc.block u).nexts.countP fun v => Critical proc u v := by
  have same (v : Nat) (member : v ∈ (proc.block u).nexts) :
      decide (Critical (splitEdge proc source sink) u v) = true ↔
        decide (Critical proc u v) = true := by
    rw [decide_eq_true_iff, decide_eq_true_iff]
    exact critical_split edge inside (edge.agrees.nextsInside u inside v member)
  rw [(splitEdge_old inside).2.1]
  split
  next isSource =>
    subst isSource
    have one : ([proc.count].countP fun v => Critical (splitEdge proc u sink) u v) = 0 := by
      rw [List.countP_eq_zero]
      intro v member
      rw [List.mem_singleton] at member
      rw [member, decide_eq_true_iff]
      exact not_critical_to_new edge u
    have erased : ((Arrays.remove (proc.block u).nexts sink).countP fun v =>
        Critical (splitEdge proc u sink) u v) + 1 =
          (proc.block u).nexts.countP fun v => Critical proc u v := by
      rw [(List.perm_cons_erase edge.next).countP_eq, List.countP_cons,
        if_pos (decide_eq_true critical)]
      apply congrArg Nat.succ
      apply List.countP_congr
      intro v member
      exact same v (List.mem_of_mem_erase member)
    rw [List.countP_append, one]
    exact erased
  next => exact List.countP_congr same

theorem criticalFrom_split {places : Nat} (inside : places ≤ proc.count) :
    criticalFrom (splitEdge proc source sink) places + (if source < places then 1 else 0) =
      criticalFrom proc places := by
  induction places with
  | zero => rfl
  | succ u ih =>
    have here := countP_split edge critical (u := u) inside
    have before := ih (Nat.le_of_lt inside)
    rw [criticalFrom, criticalFrom, ← before, ← here]
    rcases Nat.lt_trichotomy source u with less | same | greater
    · rw [if_pos less, if_pos (Nat.lt_succ_of_lt less), if_neg (Nat.ne_of_gt less)]
      omega
    · rw [if_pos same.symm, if_neg (Nat.not_lt.mpr (Nat.le_of_eq same.symm)),
        if_pos (Nat.lt_succ_of_le (Nat.le_of_eq same))]
      omega
    · rw [if_neg (Nat.lt_asymm greater), if_neg (Nat.not_lt.mpr greater),
        if_neg (Nat.ne_of_lt greater)]
      rfl

theorem criticalCount_split :
    criticalCount (splitEdge proc source sink) + 1 = criticalCount proc := by
  have old := criticalFrom_split edge critical (Nat.le_refl _)
  rw [if_pos edge.inside] at old
  have none : (((splitEdge proc source sink).block proc.count).nexts.countP fun v =>
      Critical (splitEdge proc source sink) proc.count v) = 0 := by
    rw [List.countP_eq_zero]
    intro v _
    rw [decide_eq_true_iff]
    exact not_critical_from_new edge v
  have count : criticalCount (splitEdge proc source sink) =
      criticalFrom (splitEdge proc source sink) (proc.count + 1) := rfl
  rw [count, criticalFrom, none]
  exact old

end

/-! ## Contraction -/

/-- The block an edge to `b` leads to when inserted blocks are contracted. -/
def target (old : Nat) (proc : Procedure) (b : Nat) : Nat :=
  if b < old then b else (proc.block b).nexts.headD b

/-- The block an edge from `b` comes from when inserted blocks are contracted. -/
def origin (old : Nat) (proc : Procedure) (b : Nat) : Nat :=
  if b < old then b else (proc.block b).prevs.headD b

def contractCb (old : Nat) (proc : Procedure) : Opcode → Opcode
  | .block b => .block (target old proc b)
  | opcode => opcode

/-- The blocks from the count of `old` on hold a single jump between two blocks of
`old`, and contracting them gives the instructions and the lists of `old`. -/
structure Contracts (old proc : Procedure) : Prop where
  count : old.count ≤ proc.count
  inserted : ∀ b < proc.count, old.count ≤ b → ∃ root, ∃ source < old.count, ∃ sink < old.count,
    proc.block b = ⟨[jumpIr root sink], [source], [sink]⟩
  irs : ∀ u < old.count,
    (proc.block u).irs.map (Ir.walk (contractCb old.count proc)) = (old.block u).irs
  nexts : ∀ u < old.count,
    ((proc.block u).nexts.map (target old.count proc)).Perm (old.block u).nexts
  prevs : ∀ v < old.count,
    ((proc.block v).prevs.map (origin old.count proc)).Perm (old.block v).prevs

theorem Contracts.refl {proc : Procedure} (agrees : Agrees proc) : Contracts proc proc where
  count := Nat.le_refl _
  inserted b inside new := absurd inside (Nat.not_lt.mpr new)
  irs u inside := by
    refine (List.map_congr_left ?_).trans (List.map_id _)
    intro ir member
    refine (Ir.walk_congr ?_).trans (Ir.walk_id ir)
    intro opcode visits
    cases opcode with
    | block b =>
      have refers : (proc.block u).RefersTo b := ⟨ir, member, visits⟩
      have next := (agrees.nexts u inside b).mpr refers
      exact congrArg Opcode.block (if_pos (agrees.nextsInside u inside b next))
    | jump => rfl
    | other code => rfl
  nexts u inside := by
    refine List.Perm.of_eq ((List.map_congr_left ?_).trans (List.map_id _))
    intro v member
    exact if_pos (agrees.nextsInside u inside v member)
  prevs v inside := by
    refine List.Perm.of_eq ((List.map_congr_left ?_).trans (List.map_id _))
    intro u member
    exact if_pos (agrees.prevsInside v inside u member)

variable {old proc : Procedure} {source sink : Nat}

section

variable (contracts : Contracts old proc) (edge : Edge proc source sink) (critical : Critical proc source sink)
include contracts edge critical

theorem Contracts.source_old : source < old.count := by
  apply Nat.lt_of_not_le
  intro new
  obtain ⟨root, start, _, goal, _, shape⟩ := contracts.inserted source edge.inside new
  have several := critical.1
  rw [shape] at several
  exact Nat.lt_irrefl 1 several

theorem Contracts.sink_old : sink < old.count := by
  apply Nat.lt_of_not_le
  intro new
  obtain ⟨root, start, _, goal, _, shape⟩ := contracts.inserted sink edge.sinkInside new
  have several := critical.2
  rw [shape] at several
  exact Nat.lt_irrefl 1 several

end

theorem target_split (edge : Edge proc source sink)
    (sourceOld : source < old.count) {b : Nat} (inside : b < proc.count) :
    target old.count (splitEdge proc source sink) b = target old.count proc b := by
  unfold target
  split
  next => rfl
  next new =>
    have differs : b ≠ source := by
      rintro rfl
      exact new sourceOld
    rw [(splitEdge_old inside).2.1, if_neg differs]

theorem origin_split (edge : Edge proc source sink)
    (sinkOld : sink < old.count) {b : Nat} (inside : b < proc.count) :
    origin old.count (splitEdge proc source sink) b = origin old.count proc b := by
  unfold origin
  split
  next => rfl
  next new =>
    have differs : b ≠ sink := by
      rintro rfl
      exact new sinkOld
    rw [(splitEdge_old inside).2.2, if_neg differs]

/-- A list whose element has been moved to a new block at its end contracts to
the same list. -/
theorem perm_replaced {list result : List Nat} {element new : Nat} {before after : Nat → Nat}
    (member : element ∈ list) (perm : (list.map before).Perm result)
    (same : ∀ x ∈ list, after x = before x) (moved : after new = before element) :
    ((Arrays.remove list element ++ [new]).map after).Perm result := by
  have kept : (Arrays.remove list element).map after = (Arrays.remove list element).map before :=
    List.map_congr_left fun x inside => same x (List.mem_of_mem_erase inside)
  rw [List.map_append, List.map_singleton, kept, moved]
  refine List.perm_append_comm.trans ?_
  exact ((List.perm_cons_erase member).map before).symm.trans perm

/-- One more split contracts to the same original. -/
theorem Contracts.split (contracts : Contracts old proc) (edge : Edge proc source sink)
    (critical : Critical proc source sink) : Contracts old (splitEdge proc source sink) := by
  have sourceOld := contracts.source_old edge critical
  have sinkOld := contracts.sink_old edge critical
  have notOld : ¬ proc.count < old.count := Nat.not_lt.mpr contracts.count
  have targetNew : target old.count (splitEdge proc source sink) proc.count = sink := by
    rw [target, if_neg notOld, edge.new]
    rfl
  have originNew : origin old.count (splitEdge proc source sink) proc.count = source := by
    rw [origin, if_neg notOld, edge.new]
    rfl
  have targetSink : target old.count proc sink = sink := if_pos sinkOld
  have originSource : origin old.count proc source = source := if_pos sourceOld
  refine ⟨Nat.le_succ_of_le contracts.count, ?_, ?_, ?_, ?_⟩
  · intro b inside new
    cases Nat.lt_succ_iff_lt_or_eq.mp inside with
    | inl before =>
      obtain ⟨root, start, startOld, goal, goalOld, shape⟩ := contracts.inserted b before new
      obtain ⟨irs, nexts, prevs⟩ := @splitEdge_old proc source sink b before
      have notSource : b ≠ source := Nat.ne_of_gt (Nat.lt_of_lt_of_le sourceOld new)
      have notSink : b ≠ sink := Nat.ne_of_gt (Nat.lt_of_lt_of_le sinkOld new)
      rw [if_neg notSource] at irs nexts
      rw [if_neg notSink] at prevs
      refine ⟨root, start, startOld, goal, goalOld, ?_⟩
      rw [← shape]
      cases same : (splitEdge proc source sink).block b
      rw [same] at irs nexts prevs
      dsimp only at irs nexts prevs
      rw [irs, nexts, prevs]
    | inr isNew =>
      rw [isNew]
      exact ⟨_, source, sourceOld, sink, sinkOld, edge.new⟩
  · intro u inside
    have insideNow := Nat.lt_of_lt_of_le inside contracts.count
    have same (ir : Ir) (member : ir ∈ (proc.block u).irs) (b : Nat)
        (visits : Opcode.block b ∈ ir.visited) :
        target old.count (splitEdge proc source sink) b = target old.count proc b := by
      have refers : (proc.block u).RefersTo b := ⟨ir, member, visits⟩
      have next := (edge.agrees.nexts u insideNow b).mpr refers
      exact target_split edge sourceOld (edge.agrees.nextsInside u insideNow b next)
    rw [← contracts.irs u inside, (splitEdge_old insideNow).1]
    split
    next =>
      rw [List.map_map]
      apply List.map_congr_left
      intro ir member
      rw [Function.comp_apply, Ir.walk_walk]
      apply Ir.walk_congr
      intro opcode visits
      unfold findReplaceCb
      split
      next found =>
        rw [found, contractCb, contractCb, targetNew, targetSink]
      next =>
        cases opcode with
        | block b => exact congrArg Opcode.block (same ir member b visits)
        | jump => rfl
        | other code => rfl
    next =>
      apply List.map_congr_left
      intro ir member
      apply Ir.walk_congr
      intro opcode visits
      cases opcode with
      | block b => exact congrArg Opcode.block (same ir member b visits)
      | jump => rfl
      | other code => rfl
  · intro u inside
    have insideNow := Nat.lt_of_lt_of_le inside contracts.count
    have same (v : Nat) (member : v ∈ (proc.block u).nexts) :
        target old.count (splitEdge proc source sink) v = target old.count proc v :=
      target_split edge sourceOld (edge.agrees.nextsInside u insideNow v member)
    rw [(splitEdge_old insideNow).2.1]
    split
    next isSource =>
      subst isSource
      exact perm_replaced edge.next (contracts.nexts u inside) same (targetNew.trans targetSink.symm)
    next => exact (List.Perm.of_eq (List.map_congr_left same)).trans (contracts.nexts u inside)
  · intro v inside
    have insideNow := Nat.lt_of_lt_of_le inside contracts.count
    have same (u : Nat) (member : u ∈ (proc.block v).prevs) :
        origin old.count (splitEdge proc source sink) u = origin old.count proc u :=
      origin_split edge sinkOld (edge.agrees.prevsInside v insideNow u member)
    rw [(splitEdge_old insideNow).2.2]
    split
    next isSink =>
      subst isSink
      exact perm_replaced edge.prev (contracts.prevs v inside) same
        (originNew.trans originSource.symm)
    next => exact (List.Perm.of_eq (List.map_congr_left same)).trans (contracts.prevs v inside)

end AckFormal.Mcg.EdgeContraction
