import AckFormal.Mcg.CriticalEdges
import Mathlib.Data.List.Count

/-!
# A split keeps the graph

Each split keeps the three representations of the graph in agreement, takes one
from the number of critical edges and adds one block, and the block it adds can be
contracted again.  The ends of a critical edge are never inserted blocks, because
these have one predecessor and one successor.
-/

namespace AckFormal.Mcg.SplitEdges

open AckFormal.Data BlockIrs CriticalEdges
open List (mem_append mem_map mem_singleton)

/-! ## References -/

/-- After the walk the old block is not referred to, and the new one if the old
one was. -/
theorem mem_map_findReplaceCb {opcodes : List Opcode} {find replace v : Nat} :
    Opcode.block v ∈ opcodes.map (findReplaceCb find replace) ↔
      Opcode.block v ∈ opcodes ∧ v ≠ find ∨ v = replace ∧ Opcode.block find ∈ opcodes := by
  rw [mem_map]
  unfold findReplaceCb
  constructor
  · rintro ⟨opcode, member, image⟩
    split at image
    next found =>
      rw [found] at member
      cases image
      exact Or.inr ⟨rfl, member⟩
    next other =>
      rw [image] at member other
      refine Or.inl ⟨member, ?_⟩
      rintro rfl
      exact other rfl
  · rintro (⟨member, differs⟩ | ⟨rfl, member⟩)
    · refine ⟨.block v, member, if_neg ?_⟩
      intro same
      cases same
      exact differs rfl
    · exact ⟨.block find, member, if_pos rfl⟩

theorem refersTo_replaced {irs : List Ir} {prevs nexts prevs' nexts' : List Nat}
    {find replace v : Nat} :
    (Block.mk (irs.map (Ir.walk (findReplaceCb find replace))) prevs' nexts').RefersTo v ↔
      (Block.mk irs prevs nexts).RefersTo v ∧ v ≠ find ∨
        v = replace ∧ (Block.mk irs prevs nexts).RefersTo find := by
  unfold Block.RefersTo
  simp only [mem_map, exists_exists_and_eq_and, Ir.visited_walk]
  constructor
  · rintro ⟨ir, member, visits⟩
    rw [← mem_map, mem_map_findReplaceCb] at visits
    refine visits.imp ?_ ?_
    · rintro ⟨visits, differs⟩
      exact ⟨⟨ir, member, visits⟩, differs⟩
    · rintro ⟨same, visits⟩
      exact ⟨same, ir, member, visits⟩
  · rintro (⟨⟨ir, member, visits⟩, differs⟩ | ⟨same, ir, member, visits⟩)
    · refine ⟨ir, member, ?_⟩
      rw [← mem_map, mem_map_findReplaceCb]
      exact Or.inl ⟨visits, differs⟩
    · refine ⟨ir, member, ?_⟩
      rw [← mem_map, mem_map_findReplaceCb]
      exact Or.inr ⟨same, visits⟩

theorem refersTo_congr {bb other : Block} (same : bb.irs = other.irs) (v : Nat) :
    bb.RefersTo v ↔ other.RefersTo v := by
  unfold Block.RefersTo
  rw [same]

theorem refersTo_jump {root sink v : Nat} {prevs nexts : List Nat} :
    (Block.mk [jumpIr root sink] prevs nexts).RefersTo v ↔ v = sink := by
  simp [Block.RefersTo, jumpIr, Ir.visited, Ir.root]

/-! ## Lists -/

structure Edge (proc : Procedure) (source sink : Nat) : Prop where
  agrees : Agrees proc
  inside : source < proc.count
  next : sink ∈ (proc.block source).nexts

namespace Edge

variable {proc : Procedure} {source sink : Nat}

section

variable (edge : Edge proc source sink)
include edge

theorem sinkInside : sink < proc.count :=
  edge.agrees.nextsInside source edge.inside sink edge.next

theorem prev : source ∈ (proc.block sink).prevs :=
  (edge.agrees.prevs source edge.inside sink edge.sinkInside).mpr edge.next

theorem new :
    (splitEdge proc source sink).block proc.count =
      ⟨[jumpIr (proc.nextId + 1) sink], [source], [sink]⟩ :=
  splitEdge_new edge.inside edge.sinkInside

theorem mem_nexts {u v : Nat} (insideU : u < proc.count)
    (insideV : v < proc.count) :
    v ∈ ((splitEdge proc source sink).block u).nexts ↔
      v ∈ (proc.block u).nexts ∧ ¬ (u = source ∧ v = sink) := by
  rw [(splitEdge_old insideU).2.1]
  split
  next isSource =>
    rw [mem_append, mem_singleton, or_iff_left (Nat.ne_of_lt insideV),
      Arrays.mem_remove (edge.agrees.nextsOnce u insideU)]
    simp only [isSource, true_and]
  next notSource => simp only [notSource, false_and, not_false_eq_true, and_true]

theorem mem_prevs {u v : Nat} (insideU : u < proc.count)
    (insideV : v < proc.count) :
    u ∈ ((splitEdge proc source sink).block v).prevs ↔
      u ∈ (proc.block v).prevs ∧ ¬ (u = source ∧ v = sink) := by
  rw [(splitEdge_old insideV).2.2]
  split
  next isSink =>
    rw [mem_append, mem_singleton, or_iff_left (Nat.ne_of_lt insideU),
      Arrays.mem_remove (edge.agrees.prevsOnce v insideV)]
    simp only [isSink, and_true]
  next notSink => simp only [notSink, and_false, not_false_eq_true, and_true]

theorem new_mem_nexts {u : Nat} (inside : u < proc.count) :
    proc.count ∈ ((splitEdge proc source sink).block u).nexts ↔ u = source := by
  rw [(splitEdge_old inside).2.1]
  split
  next isSource => simp [isSource]
  next notSource =>
    simp only [notSource, iff_false]
    intro member
    exact Nat.lt_irrefl _ (edge.agrees.nextsInside u inside proc.count member)

theorem new_mem_prevs {v : Nat} (inside : v < proc.count) :
    proc.count ∈ ((splitEdge proc source sink).block v).prevs ↔ v = sink := by
  rw [(splitEdge_old inside).2.2]
  split
  next isSink => simp [isSink]
  next notSink =>
    simp only [notSink, iff_false]
    intro member
    exact Nat.lt_irrefl _ (edge.agrees.prevsInside v inside proc.count member)

end

theorem length_replaced {list : List Nat} {old new : Nat} (member : old ∈ list) :
    (Arrays.remove list old ++ [new]).length = list.length := by
  rw [List.length_append, Arrays.remove, List.length_erase_of_mem member, List.length_singleton]
  exact Nat.sub_add_cancel (List.length_pos_of_mem member)

theorem length_nexts (edge : Edge proc source sink) {u : Nat} (inside : u < proc.count) :
    ((splitEdge proc source sink).block u).nexts.length = (proc.block u).nexts.length := by
  rw [(splitEdge_old inside).2.1]
  split
  next isSource =>
    rw [isSource]
    exact length_replaced edge.next
  next => rfl

theorem length_prevs (edge : Edge proc source sink) {v : Nat} (inside : v < proc.count) :
    ((splitEdge proc source sink).block v).prevs.length = (proc.block v).prevs.length := by
  rw [(splitEdge_old inside).2.2]
  split
  next isSink =>
    rw [isSink]
    exact length_replaced edge.prev
  next => rfl

theorem nodup_replaced {list : List Nat} {old new : Nat} (once : list.Nodup) (fresh : new ∉ list) :
    (Arrays.remove list old ++ [new]).Nodup := by
  refine (Arrays.nodup_remove once old).append (List.nodup_singleton new) ?_
  rw [List.disjoint_singleton, Arrays.mem_remove once]
  rintro ⟨member, _⟩
  exact fresh member

/-- After a split the four representations of the edges agree again. -/
theorem split_agrees (edge : Edge proc source sink) : Agrees (splitEdge proc source sink) := by
  have agrees := edge.agrees
  have sourceOld := Nat.ne_of_lt edge.inside
  have sinkOld := Nat.ne_of_lt edge.sinkInside
  refine ⟨?_, ?_, ?_, ?_, ?_, ?_⟩
  · intro u inside v
    cases Nat.lt_succ_iff_lt_or_eq.mp inside with
    | inr isNew => rw [isNew, edge.new, refersTo_jump, mem_singleton]
    | inl old =>
      obtain ⟨irs, nexts, _⟩ := @splitEdge_old proc source sink u old
      rw [nexts]
      split at irs
      next isSource =>
        rw [if_pos isSource, @refersTo_congr _ ⟨_, [], []⟩ irs, refersTo_replaced,
          mem_append, mem_singleton, Arrays.mem_remove (agrees.nextsOnce u old),
          agrees.nexts u old]
        refine or_congr_right (iff_self_and.mpr ?_)
        intro _
        rw [isSource]
        exact (agrees.nexts source edge.inside sink).mp edge.next
      next notSource =>
        rw [if_neg notSource, refersTo_congr irs]
        exact agrees.nexts u old v
  · intro u insideU v insideV
    cases Nat.lt_succ_iff_lt_or_eq.mp insideU with
    | inr isNewU =>
      rw [isNewU, edge.new, mem_singleton]
      cases Nat.lt_succ_iff_lt_or_eq.mp insideV with
      | inr isNewV =>
        rw [isNewV, edge.new, mem_singleton]
        exact iff_of_false sourceOld.symm sinkOld.symm
      | inl oldV => exact edge.new_mem_prevs oldV
    | inl oldU =>
      cases Nat.lt_succ_iff_lt_or_eq.mp insideV with
      | inr isNewV =>
        rw [isNewV, edge.new, mem_singleton]
        exact (edge.new_mem_nexts oldU).symm
      | inl oldV =>
        rw [edge.mem_prevs oldU oldV, edge.mem_nexts oldU oldV, agrees.prevs u oldU v oldV]
  · intro u inside
    cases Nat.lt_succ_iff_lt_or_eq.mp inside with
    | inr isNew =>
      rw [isNew, edge.new]
      exact List.nodup_singleton sink
    | inl old =>
      rw [(splitEdge_old old).2.1]
      split
      next =>
        refine nodup_replaced (agrees.nextsOnce u old) ?_
        intro member
        exact Nat.lt_irrefl _ (agrees.nextsInside u old _ member)
      next => exact agrees.nextsOnce u old
  · intro v inside
    cases Nat.lt_succ_iff_lt_or_eq.mp inside with
    | inr isNew =>
      rw [isNew, edge.new]
      exact List.nodup_singleton source
    | inl old =>
      rw [(splitEdge_old old).2.2]
      split
      next =>
        refine nodup_replaced (agrees.prevsOnce v old) ?_
        intro member
        exact Nat.lt_irrefl _ (agrees.prevsInside v old _ member)
      next => exact agrees.prevsOnce v old
  · intro u inside v member
    cases Nat.lt_succ_iff_lt_or_eq.mp inside with
    | inr isNew =>
      rw [isNew, edge.new, mem_singleton] at member
      rw [member]
      exact Nat.lt_succ_of_lt edge.sinkInside
    | inl old =>
      rw [(splitEdge_old old).2.1] at member
      split at member
      next =>
        rw [mem_append, mem_singleton, Arrays.mem_remove (agrees.nextsOnce u old)] at member
        rcases member with ⟨member, _⟩ | isNew
        · exact Nat.lt_succ_of_lt (agrees.nextsInside u old v member)
        · exact isNew ▸ Nat.lt_succ_self _
      next => exact Nat.lt_succ_of_lt (agrees.nextsInside u old v member)
  · intro v inside u member
    cases Nat.lt_succ_iff_lt_or_eq.mp inside with
    | inr isNew =>
      rw [isNew, edge.new, mem_singleton] at member
      rw [member]
      exact Nat.lt_succ_of_lt edge.inside
    | inl old =>
      rw [(splitEdge_old old).2.2] at member
      split at member
      next =>
        rw [mem_append, mem_singleton, Arrays.mem_remove (agrees.prevsOnce v old)] at member
        rcases member with ⟨member, _⟩ | isNew
        · exact Nat.lt_succ_of_lt (agrees.prevsInside v old u member)
        · exact isNew ▸ Nat.lt_succ_self _
      next => exact Nat.lt_succ_of_lt (agrees.prevsInside v old u member)

end Edge

end AckFormal.Mcg.SplitEdges
