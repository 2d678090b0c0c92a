import AckFormal.Data.Arrays
import Mathlib.Data.List.Perm.Basic

/-!
# Basic blocks and their references

The edges of the control flow graph are kept in three places: in the `IR_BLOCK`
nodes of a block, in `nexts` of the block and in `prevs` of the blocks it refers
to.  A walk over an `struct ir` enters the children that have the same root; a
child with another root belongs to another entry of `irs`, or to none.
-/

namespace AckFormal.Mcg.BlockIrs

open AckFormal.Data

/-- The opcode, with `u.bvalue` of an `IR_BLOCK`.  Nothing here looks at other
opcodes. -/
inductive Opcode where
  | block (bvalue : Nat)
  | jump
  | other (code : Nat)
deriving DecidableEq

/-- `struct ir`, or a null pointer; `root` is the node that `root` points to. -/
inductive Ir where
  | null
  | node (opcode : Opcode) (root : Nat) (left right : Ir)

namespace Ir

def root : Ir → Option Nat
  | null => none
  | node _ root _ _ => some root

/-- `ir_walk` with a callback that returns false and changes the nodes. -/
def walk (callback : Opcode → Opcode) : Ir → Ir
  | null => null
  | node opcode root left right =>
    node (callback opcode) root
      (if left.root = some root then walk callback left else left)
      (if right.root = some root then walk callback right else right)

def visited : Ir → List Opcode
  | null => []
  | node opcode root left right =>
    opcode :: ((if left.root = some root then visited left else []) ++
      (if right.root = some root then visited right else []))

theorem root_walk (callback : Opcode → Opcode) (ir : Ir) : (ir.walk callback).root = ir.root := by
  cases ir <;> rfl

theorem visited_walk (callback : Opcode → Opcode) (ir : Ir) :
    (ir.walk callback).visited = ir.visited.map callback := by
  induction ir with
  | null => rfl
  | node opcode root left right ihLeft ihRight =>
    rw [walk, visited, visited, List.map_cons, List.map_append]
    congr 2
    · split
      next same => rw [root_walk, if_pos same, ihLeft]
      next => rfl
    · split
      next same => rw [root_walk, if_pos same, ihRight]
      next => rfl

theorem walk_walk (first second : Opcode → Opcode) (ir : Ir) :
    (ir.walk first).walk second = ir.walk fun opcode => second (first opcode) := by
  induction ir with
  | null => rfl
  | node opcode root left right ihLeft ihRight =>
    rw [walk, walk, walk]
    congr 1
    · split
      next same => rw [root_walk, if_pos same, ihLeft]
      next => rfl
    · split
      next same => rw [root_walk, if_pos same, ihRight]
      next => rfl

theorem walk_congr {first second : Opcode → Opcode} {ir : Ir}
    (agree : ∀ opcode ∈ ir.visited, first opcode = second opcode) :
    ir.walk first = ir.walk second := by
  induction ir with
  | null => rfl
  | node opcode root left right ihLeft ihRight =>
    rw [visited, List.forall_mem_cons, List.forall_mem_append] at agree
    obtain ⟨here, inLeft, inRight⟩ := agree
    rw [walk, walk, here]
    congr 1
    · split
      next same =>
        rw [if_pos same] at inLeft
        exact ihLeft inLeft
      next => rfl
    · split
      next same =>
        rw [if_pos same] at inRight
        exact ihRight inRight
      next => rfl

theorem walk_id (ir : Ir) : ir.walk id = ir := by
  induction ir with
  | null => rfl
  | node opcode root left right ihLeft ihRight =>
    rw [walk, ihLeft, ihRight, ite_self, ite_self]
    rfl

end Ir

/-- `struct basicblock`; a block is named by its place in `current_proc->blocks`. -/
structure Block where
  irs : List Ir
  prevs : List Nat
  nexts : List Nat

/-- `current_proc->blocks`, with the counter of the nodes made so far. -/
structure Procedure where
  count : Nat
  block : Nat → Block
  nextId : Nat

/-- The blocks that the `IR_BLOCK` nodes of a block refer to. -/
def Block.RefersTo (bb : Block) (target : Nat) : Prop :=
  ∃ ir ∈ bb.irs, Opcode.block target ∈ ir.visited

/-- The lists of all blocks agree with the references, and name each block once. -/
structure Agrees (proc : Procedure) : Prop where
  nexts : ∀ u < proc.count, ∀ v, v ∈ (proc.block u).nexts ↔ (proc.block u).RefersTo v
  prevs : ∀ u < proc.count, ∀ v < proc.count, u ∈ (proc.block v).prevs ↔ v ∈ (proc.block u).nexts
  nextsOnce : ∀ u < proc.count, (proc.block u).nexts.Nodup
  prevsOnce : ∀ u < proc.count, (proc.block u).prevs.Nodup
  nextsInside : ∀ u < proc.count, ∀ v ∈ (proc.block u).nexts, v < proc.count
  prevsInside : ∀ u < proc.count, ∀ v ∈ (proc.block u).prevs, v < proc.count

end AckFormal.Mcg.BlockIrs

/-!
## Splitting critical edges

`pass_split_critical_edges` puts an empty block with a jump on every edge from a
block with several successors to a block with several predecessors.  The loop
over the successors of a block changes their list: what follows a split edge
moves down by one place and is not looked at in this round.
-/

namespace AckFormal.Mcg.CriticalEdges

open AckFormal.Data BlockIrs

def findReplaceCb (find replace : Nat) (opcode : Opcode) : Opcode :=
  if opcode = .block find then .block replace else opcode

/-- The jump of an inserted block, and the `IR_BLOCK` below it. -/
def jumpIr (root sink : Nat) : Ir := .node .jump root (.node (.block sink) root .null .null) .null

def assign (block : Nat → Block) (place : Nat) (change : Block → Block) : Nat → Block :=
  Function.update block place (change (block place))

def splitEdge (proc : Procedure) (source sink : Nat) : Procedure :=
  let bb := proc.count
  -- `new_bbir` and then `new_ir1` take a number each
  let jump := proc.nextId + 1
  let block := Function.update proc.block bb ⟨[jumpIr jump sink], [], []⟩
  let block := assign block source fun b =>
    { b with irs := b.irs.map (Ir.walk (findReplaceCb sink bb)) }
  let block := assign block source fun b => { b with nexts := Arrays.remove b.nexts sink ++ [bb] }
  let block := assign block bb fun b => { b with prevs := b.prevs ++ [source] }
  let block := assign block bb fun b => { b with nexts := b.nexts ++ [sink] }
  let block := assign block sink fun b => { b with prevs := Arrays.remove b.prevs source ++ [bb] }
  ⟨bb + 1, block, proc.nextId + 2⟩

/-- The loop of `consider_edges_leading_from`, from the place `i` on. -/
def considerLoop : Nat → Nat → Nat → Procedure → Bool → Option (Procedure × Bool)
  | 0, _, _, _, _ => none
  | fuel + 1, bb, i, proc, changed =>
    match (proc.block bb).nexts[i]? with
    | none => some (proc, changed)
    | some next =>
      if 1 < (proc.block next).prevs.length then
        considerLoop fuel bb (i + 1) (splitEdge proc bb next) true
      else considerLoop fuel bb (i + 1) proc changed

def considerEdgesLeadingFrom (fuel bb : Nat) (proc : Procedure) : Option (Procedure × Bool) :=
  if 1 < (proc.block bb).nexts.length then considerLoop fuel bb 0 proc false
  else some (proc, false)

/-- The loop over the blocks, from the place `i` on; blocks are appended while it
runs. -/
def sweep : Nat → Nat → Procedure → Bool → Option (Procedure × Bool)
  | 0, _, _, _ => none
  | fuel + 1, i, proc, changed =>
    if i < proc.count then
      match considerEdgesLeadingFrom fuel i proc with
      | none => none
      | some (proc, now) => sweep fuel (i + 1) proc (changed || now)
    else some (proc, changed)

def splitCriticalEdges : Nat → Procedure → Option Procedure
  | 0, _ => none
  | fuel + 1, proc =>
    match sweep fuel 0 proc false with
    | none => none
    | some (proc, true) => splitCriticalEdges fuel proc
    | some (proc, false) => some proc

/-- More than one edge leaves `u`, and more than one leads to `v`. -/
def Critical (proc : Procedure) (u v : Nat) : Prop :=
  1 < (proc.block u).nexts.length ∧ 1 < (proc.block v).prevs.length

instance (proc : Procedure) (u v : Nat) : Decidable (Critical proc u v) :=
  inferInstanceAs (Decidable (_ ∧ _))

/-! ## One split -/

theorem assign_self (block : Nat → Block) (place : Nat) (change : Block → Block) :
    assign block place change place = change (block place) :=
  Function.update_self ..

theorem assign_of_ne {block : Nat → Block} {place u : Nat} (change : Block → Block)
    (differs : u ≠ place) : assign block place change u = block u :=
  Function.update_of_ne differs ..

variable {proc : Procedure} {source sink : Nat}

theorem splitEdge_new (sourceInside : source < proc.count) (sinkInside : sink < proc.count) :
    (splitEdge proc source sink).block proc.count =
      ⟨[jumpIr (proc.nextId + 1) sink], [source], [sink]⟩ := by
  unfold splitEdge
  dsimp only
  rw [assign_of_ne _ (Nat.ne_of_gt sinkInside), assign_self, assign_self,
    assign_of_ne _ (Nat.ne_of_gt sourceInside), assign_of_ne _ (Nat.ne_of_gt sourceInside),
    Function.update_self]
  rfl

/-- Of the other blocks only the source changes its instructions and successors,
and only the sink its predecessors. -/
theorem splitEdge_old {u : Nat} (inside : u < proc.count) :
    ((splitEdge proc source sink).block u).irs =
        (if u = source then (proc.block u).irs.map (Ir.walk (findReplaceCb sink proc.count))
          else (proc.block u).irs) ∧
      ((splitEdge proc source sink).block u).nexts =
        (if u = source then Arrays.remove (proc.block u).nexts sink ++ [proc.count]
          else (proc.block u).nexts) ∧
      ((splitEdge proc source sink).block u).prevs =
        (if u = sink then Arrays.remove (proc.block u).prevs source ++ [proc.count]
          else (proc.block u).prevs) := by
  have old : u ≠ proc.count := Nat.ne_of_lt inside
  unfold splitEdge
  dsimp only
  by_cases isSink : u = sink
  · rw [if_pos isSink, ← isSink, assign_self, assign_of_ne _ old, assign_of_ne _ old]
    by_cases isSource : u = source
    · rw [if_pos isSource, if_pos isSource, ← isSource, assign_self, assign_self,
        Function.update_of_ne old]
      exact ⟨rfl, rfl, rfl⟩
    · rw [if_neg isSource, if_neg isSource, assign_of_ne _ isSource, assign_of_ne _ isSource,
        Function.update_of_ne old]
      exact ⟨rfl, rfl, rfl⟩
  · rw [if_neg isSink, assign_of_ne _ isSink, assign_of_ne _ old, assign_of_ne _ old]
    by_cases isSource : u = source
    · rw [if_pos isSource, if_pos isSource, ← isSource, assign_self, assign_self,
        Function.update_of_ne old]
      exact ⟨rfl, rfl, rfl⟩
    · rw [if_neg isSource, if_neg isSource, assign_of_ne _ isSource, assign_of_ne _ isSource,
        Function.update_of_ne old]
      exact ⟨rfl, rfl, rfl⟩

end AckFormal.Mcg.CriticalEdges
