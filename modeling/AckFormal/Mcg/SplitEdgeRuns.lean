import AckFormal.Mcg.EdgeContraction
import Mathlib.Data.List.Range
import Mathlib.Data.List.Perm.Subperm

/-!
# All critical edges are split

A split changes neither the number of successors of a block nor the sum of the
blocks and the critical edges; these bound the loops of the pass.  A round that
splits nothing has looked at every edge.
-/

namespace AckFormal.Mcg.SplitEdgeRuns

open BlockIrs CriticalEdges SplitEdges EdgeContraction

inductive Splits : Nat → Procedure → Procedure → Prop where
  | none (proc : Procedure) : Splits 0 proc proc
  | split {number : Nat} {proc proc' : Procedure} (source sink : Nat)
      (inside : source < proc.count) (next : sink ∈ (proc.block source).nexts)
      (critical : Critical proc source sink)
      (rest : Splits number (splitEdge proc source sink) proc') : Splits (number + 1) proc proc'

namespace Splits

variable {number : Nat} {proc proc' : Procedure}

theorem trans {first second : Nat} {middle : Procedure} (before : Splits first proc middle)
    (after : Splits second middle proc') : Splits (second + first) proc proc' := by
  induction before with
  | none => exact after
  | split source sink inside next critical _ ih =>
    exact Splits.split source sink inside next critical (ih after)

theorem agrees (splits : Splits number proc proc') (agrees : Agrees proc) : Agrees proc' := by
  induction splits with
  | none => exact agrees
  | split source sink inside next critical rest ih =>
    exact ih (Edge.split_agrees ⟨agrees, inside, next⟩)

theorem contracts {old : Procedure} (splits : Splits number proc proc') (agrees : Agrees proc)
    (contracts : Contracts old proc) : Contracts old proc' := by
  induction splits with
  | none => exact contracts
  | split source sink inside next critical rest ih =>
    have edge : Edge _ source sink := ⟨agrees, inside, next⟩
    exact ih edge.split_agrees (contracts.split edge critical)

theorem count (splits : Splits number proc proc') : proc'.count = proc.count + number := by
  induction splits with
  | none => rfl
  | split source sink inside next critical rest ih =>
    rw [ih]
    exact Nat.add_right_comm ..

theorem criticalCount (splits : Splits number proc proc') (agrees : Agrees proc) :
    EdgeContraction.criticalCount proc' + number = EdgeContraction.criticalCount proc := by
  induction splits with
  | none => rfl
  | split source sink inside next critical rest ih =>
    have edge : Edge _ source sink := ⟨agrees, inside, next⟩
    rw [← criticalCount_split edge critical, ← ih edge.split_agrees]
    rfl

theorem eq_of_none (splits : Splits 0 proc proc') : proc' = proc := by
  cases splits
  rfl

end Splits

variable {proc : Procedure} {fuel : Nat}

theorem length_nexts_le (agrees : Agrees proc) {u : Nat} (inside : u < proc.count) :
    (proc.block u).nexts.length ≤ proc.count := by
  have below : (proc.block u).nexts ⊆ List.range proc.count := by
    intro v member
    exact List.mem_range.mpr (agrees.nextsInside u inside v member)
  have fits := ((agrees.nextsOnce u inside).subperm below).length_le
  rwa [List.length_range] at fits

/-! ## The loops -/

/-- What a loop leaves: some splits, reported as a change.  After none of them
`quiet` holds. -/
def Outcome (proc : Procedure) (changed : Bool) (result : Option (Procedure × Bool))
    (quiet : Prop) : Prop :=
  ∃ number proc', result = some (proc', changed || decide (0 < number)) ∧
    Splits number proc proc' ∧ (number = 0 → quiet)

/-- The loop over the successors: what has been looked at without a split is not
critical. -/
theorem considerLoop_outcome {bb i : Nat} (changed : Bool) (agrees : Agrees proc)
    (inside : bb < proc.count) (several : 1 < (proc.block bb).nexts.length)
    (enough : (proc.block bb).nexts.length - i < fuel) :
    Outcome proc changed (considerLoop fuel bb i proc changed)
      (∀ j v, i ≤ j → (proc.block bb).nexts[j]? = some v → ¬ Critical proc bb v) := by
  induction fuel generalizing i proc changed with
  | zero => cases enough
  | succ fuel ih =>
    rw [considerLoop]
    cases here : (proc.block bb).nexts[i]? with
    | none =>
      refine ⟨0, proc, ?_, .none proc, ?_⟩
      · rw [decide_eq_false (Nat.lt_irrefl 0), Bool.or_false]
      · intro _ j v above present
        have ended := List.getElem?_eq_none_iff.mp here
        have started := List.getElem?_eq_some_iff.mp present
        exact absurd (Nat.le_trans ended above) (Nat.not_le.mpr started.1)
    | some next =>
      have place : i < (proc.block bb).nexts.length := (List.getElem?_eq_some_iff.mp here).1
      have member : next ∈ (proc.block bb).nexts := List.mem_of_getElem? here
      dsimp only
      split
      next critical =>
        have edge : Edge proc bb next := ⟨agrees, inside, member⟩
        obtain ⟨number, proc', run, splits, _⟩ := ih (i := i + 1) true edge.split_agrees
          (Nat.lt_succ_of_lt inside) (by rwa [edge.length_nexts inside])
          (by rw [edge.length_nexts inside]; omega)
        refine ⟨number + 1, proc', ?_, .split bb next inside member ⟨several, critical⟩ splits, ?_⟩
        · rw [run, decide_eq_true (Nat.succ_pos number), Bool.or_true, Bool.true_or]
        · intro none
          cases none
      next simple =>
        obtain ⟨number, proc', run, splits, quiet⟩ := ih (i := i + 1) changed agrees inside
          several (by omega)
        refine ⟨number, proc', run, splits, ?_⟩
        intro none j v above present
        rcases Nat.eq_or_lt_of_le above with rfl | later
        · rw [here] at present
          cases present
          exact fun critical => simple critical.2
        · exact quiet none j v later present

theorem considerEdgesLeadingFrom_outcome {bb : Nat} (agrees : Agrees proc)
    (inside : bb < proc.count) (enough : proc.count < fuel) :
    Outcome proc false (considerEdgesLeadingFrom fuel bb proc)
      (∀ v ∈ (proc.block bb).nexts, ¬ Critical proc bb v) := by
  unfold considerEdgesLeadingFrom
  split
  next several =>
    have length := length_nexts_le agrees inside
    have room : (proc.block bb).nexts.length - 0 < fuel := Nat.lt_of_le_of_lt length enough
    obtain ⟨number, proc', run, splits, quiet⟩ :=
      considerLoop_outcome false agrees inside several room
    refine ⟨number, proc', run, splits, ?_⟩
    intro none v member
    obtain ⟨j, present⟩ := List.mem_iff_getElem?.mp member
    exact quiet none j v (Nat.zero_le j) present
  next single =>
    refine ⟨0, proc, rfl, .none proc, ?_⟩
    intro _ v _ critical
    exact single critical.1

/-- The loop over the blocks, with the blocks that are appended meanwhile. -/
theorem sweep_outcome {i : Nat} (changed : Bool) (agrees : Agrees proc)
    (enough : 2 * (proc.count + criticalCount proc) + 1 < fuel + i) (started : i ≤ proc.count) :
    Outcome proc changed (sweep fuel i proc changed)
      (∀ u < proc.count, i ≤ u → ∀ v ∈ (proc.block u).nexts, ¬ Critical proc u v) := by
  induction fuel generalizing i proc changed with
  | zero => omega
  | succ fuel ih =>
    rw [sweep]
    split
    next inside =>
      have room : proc.count < fuel := by omega
      obtain ⟨number, middle, run, splits, quiet⟩ :=
        considerEdgesLeadingFrom_outcome agrees inside room
      have count := splits.count
      have critical := splits.criticalCount agrees
      obtain ⟨others, proc', rest, splitsRest, quietRest⟩ :=
        ih (i := i + 1) (changed || (false || decide (0 < number))) (splits.agrees agrees)
          (by omega) (by omega)
      rw [run]
      dsimp only
      refine ⟨others + number, proc', ?_, splits.trans splitsRest, ?_⟩
      · rw [rest, Bool.false_or, Bool.or_assoc, ← Bool.decide_or]
        simp only [Nat.add_pos_iff_pos_or_pos, or_comm]
      · intro none
        obtain ⟨noOthers, noNumber⟩ := Nat.add_eq_zero_iff.mp none
        subst noNumber
        have same := splits.eq_of_none
        subst same
        intro u insideU above v member
        rcases Nat.eq_or_lt_of_le above with rfl | later
        · exact quiet rfl v member
        · exact quietRest noOthers u insideU later v member
    next outside =>
      refine ⟨0, proc, ?_, .none proc, ?_⟩
      · rw [decide_eq_false (Nat.lt_irrefl 0), Bool.or_false]
      · intro _ u insideU above
        exact absurd (Nat.lt_of_le_of_lt above insideU) outside

def NoCritical (proc : Procedure) : Prop :=
  ∀ u < proc.count, ∀ v ∈ (proc.block u).nexts, ¬ Critical proc u v

theorem splitCriticalEdges_splits (agrees : Agrees proc)
    (enough : 2 * (proc.count + criticalCount proc) + 2 + criticalCount proc < fuel) :
    ∃ number proc', splitCriticalEdges fuel proc = some proc' ∧ Splits number proc proc' ∧
      NoCritical proc' := by
  induction fuel generalizing proc with
  | zero => cases enough
  | succ fuel ih =>
    have room : 2 * (proc.count + criticalCount proc) + 1 < fuel + 0 := by omega
    obtain ⟨number, middle, run, splits, quiet⟩ :=
      sweep_outcome false agrees room (Nat.zero_le _)
    rw [splitCriticalEdges, run, Bool.false_or]
    cases number with
    | zero =>
      have same := splits.eq_of_none
      subst same
      exact ⟨0, middle, rfl, .none middle, fun u inside => quiet rfl u inside (Nat.zero_le u)⟩
    | succ number =>
      have count := splits.count
      have critical := splits.criticalCount agrees
      obtain ⟨others, proc', rest, splitsRest, none⟩ := ih (splits.agrees agrees) (by omega)
      refine ⟨others + (number + 1), proc', ?_, splits.trans splitsRest, none⟩
      exact rest

/-- A conditional jump around a block: the edge from 0 to 2 is critical. -/
def shortcut : Procedure where
  count := 3
  block
    | 0 => ⟨[.node (.other 0) 0 (.node (.block 1) 0 .null .null) (.node (.block 2) 0 .null .null)],
        [], [1, 2]⟩
    | 1 => ⟨[jumpIr 3 2], [0], [2]⟩
    | _ => ⟨[], [0, 1], []⟩
  nextId := 5

theorem shortcut_agrees : Agrees shortcut := by
  have cases3 (u : Nat) (inside : u < shortcut.count) : u = 0 ∨ u = 1 ∨ u = 2 := by
    have below : u < 3 := inside
    omega
  refine ⟨?_, ?_, ?_, ?_, ?_, ?_⟩
  · intro u inside v
    rcases cases3 u inside with rfl | rfl | rfl <;>
      simp [shortcut, Block.RefersTo, jumpIr, Ir.visited, Ir.root]
  · decide
  · decide
  · decide
  · decide
  · decide

/-- The pass ends; no critical edge is left, the three representations agree, and
contracting the inserted blocks gives the graph there was before. -/
theorem splitCriticalEdges_correct {proc : Procedure} (agrees : Agrees proc) :
    ∃ enough, ∀ fuel ≥ enough, ∃ proc', splitCriticalEdges fuel proc = some proc' ∧
      NoCritical proc' ∧ Agrees proc' ∧ Contracts proc proc' := by
  refine ⟨2 * (proc.count + criticalCount proc) + 3 + criticalCount proc, ?_⟩
  intro fuel more
  have room : 2 * (proc.count + criticalCount proc) + 2 + criticalCount proc < fuel := by omega
  obtain ⟨number, proc', run, splits, none⟩ := splitCriticalEdges_splits agrees room
  exact ⟨proc', run, none, splits.agrees agrees, splits.contracts agrees (Contracts.refl agrees)⟩

theorem shortcut_split :
    ∃ enough, ∀ fuel ≥ enough, ∃ proc', splitCriticalEdges fuel shortcut = some proc' ∧
      NoCritical proc' ∧ Agrees proc' ∧ Contracts shortcut proc' :=
  splitCriticalEdges_correct shortcut_agrees

end AckFormal.Mcg.SplitEdgeRuns
