import AckFormal.Mcg.LowerPushes
import Mathlib.Tactic.Abel

/-!
# Runs of pushes as stores

After the adjustment the stack pointer is already where the last push leaves it.  The
values that are pushed do not depend on it; the address of each store is the stack
pointer there is after the push it stands for.
-/

namespace AckFormal.Mcg.LoweredRuns

open LowerPushes

variable {Address Value Mem World : Type} [AddCommGroup Address]
  (M : Machine Address Value Mem World) {next : Nat} {st st' : State Address Value Mem World}

/-! ## Evaluation -/

structure Agree (next : Nat) (st st' : State Address Value Mem World) : Prop where
  mem : st.mem = st'.mem
  world : st.world = st'.world
  memo : ∀ id < next, st.memo id = st'.memo id

def evalChild (root : Nat) (child : Ir) (st : State Address Value Mem World) :
    State Address Value Mem World × Value :=
  if child.root = some root then eval M child st else (st, remembered M st child)

def memoize (id : Nat) (done : State Address Value Mem World × Value) :
    State Address Value Mem World :=
  { done.1 with memo := Function.update done.1.memo id done.2 }

theorem eval_node (opcode : Opcode) (size id root : Nat) (left right : Ir)
    (st : State Address Value Mem World) :
    eval M (.node opcode size id root left right) st =
      let l := evalChild M root left st
      let r := evalChild M root right l.1
      let done := apply M size l.2 r.2 r.1 opcode
      (memoize id done, done.2) :=
  rfl

theorem evalChild_null (root : Nat) (st : State Address Value Mem World) :
    evalChild M root .null st = (st, M.nothing) :=
  rfl

variable {root id nextId : Nat} {ir : Ir}

theorem evalChild_own {child : Ir} (own : child.root = some root)
    (st : State Address Value Mem World) : evalChild M root child st = eval M child st :=
  if_pos own

omit [AddCommGroup Address] in
theorem Agree.memoize {done done' : State Address Value Mem World × Value}
    (agree : Agree next done.1 done'.1) (value : done.2 = done'.2) :
    Agree next (memoize id done) (LoweredRuns.memoize id done') where
  mem := agree.mem
  world := agree.world
  memo other old := by
    unfold LoweredRuns.memoize
    dsimp only
    by_cases same : other = id
    · rw [same, Function.update_self, Function.update_self, value]
    · rw [Function.update_of_ne same, Function.update_of_ne same, agree.memo other old]

omit [AddCommGroup Address] in
theorem Agree.memoize_new (new : next ≤ id) {value : Value} (agree : Agree next st st') :
    Agree next st (LoweredRuns.memoize id (st', value)) where
  mem := agree.mem
  world := agree.world
  memo other old := by
    unfold LoweredRuns.memoize
    dsimp only
    rw [Function.update_of_ne (Nat.ne_of_lt (Nat.lt_of_lt_of_le old new)), agree.memo other old]

theorem apply_sp {opcode : Opcode} (noUse : usesStackPointer opcode = false) (size : Nat)
    (l r : Value) (st : State Address Value Mem World) :
    (apply M size l r st opcode).1.sp = st.sp := by
  cases opcode with
  | const value => rfl
  | push => cases noUse
  | pop => cases noUse
  | store => rfl
  | add => rfl
  | getsp => cases noUse
  | setsp => cases noUse
  | stackadjust => cases noUse
  | call => cases noUse
  | other code => rfl

/-- Two evaluations that agree: with the same stack pointers they still have the same. -/
structure Alike (next : Nat) (st st' : State Address Value Mem World)
    (done done' : State Address Value Mem World × Value) : Prop where
  value : done.2 = done'.2
  agree : Agree next done.1 done'.1
  sp : st.sp = st'.sp → done.1.sp = done'.1.sp

/-- An operation gives the same in two states that agree. -/
theorem apply_alike {opcode : Opcode} (agree : Agree next st st')
    (sp : st.sp = st'.sp ∨ usesStackPointer opcode = false) (size : Nat) (l r : Value) :
    Alike next st st' (apply M size l r st opcode) (apply M size l r st' opcode) := by
  obtain ⟨sp₁, mem₁, world₁, memo₁⟩ := st
  obtain ⟨sp₂, mem₂, world₂, memo₂⟩ := st'
  obtain ⟨mem, world, memo⟩ := agree
  cases mem
  cases world
  have same (uses : usesStackPointer opcode = true) : sp₁ = sp₂ := by
    refine sp.resolve_right ?_
    rw [uses]
    exact nofun
  cases opcode with
  | const value => exact ⟨rfl, ⟨rfl, rfl, memo⟩, id⟩
  | push =>
    cases same rfl
    exact ⟨rfl, ⟨rfl, rfl, memo⟩, fun _ => rfl⟩
  | pop =>
    cases same rfl
    exact ⟨rfl, ⟨rfl, rfl, memo⟩, fun _ => rfl⟩
  | store => exact ⟨rfl, ⟨rfl, rfl, memo⟩, id⟩
  | add => exact ⟨rfl, ⟨rfl, rfl, memo⟩, id⟩
  | getsp =>
    cases same rfl
    exact ⟨rfl, ⟨rfl, rfl, memo⟩, fun _ => rfl⟩
  | setsp => exact ⟨rfl, ⟨rfl, rfl, memo⟩, fun _ => rfl⟩
  | stackadjust =>
    cases same rfl
    exact ⟨rfl, ⟨rfl, rfl, memo⟩, fun _ => rfl⟩
  | call =>
    cases same rfl
    exact ⟨rfl, ⟨rfl, rfl, memo⟩, fun _ => rfl⟩
  | other code => exact ⟨rfl, ⟨rfl, rfl, memo⟩, id⟩

theorem remembered_eq (made : ir.MadeBefore next) (agree : Agree next st st') :
    remembered M st ir = remembered M st' ir := by
  cases ir with
  | null => rfl
  | node opcode size id root left right => exact agree.memo id made.1

def childOpcodes (root : Nat) (child : Ir) : List Opcode :=
  if child.root = some root then child.visited else []

theorem visited_node (opcode : Opcode) (size id root : Nat) (left right : Ir) :
    (Ir.node opcode size id root left right).visited =
      opcode :: (childOpcodes root left ++ childOpcodes root right) :=
  rfl

theorem evalChild_sp {child : Ir}
    (ih : ∀ st, (∀ opcode ∈ child.visited, usesStackPointer opcode = false) →
      (eval M child st).1.sp = st.sp)
    (noUse : ∀ opcode ∈ childOpcodes root child, usesStackPointer opcode = false)
    (st : State Address Value Mem World) : (evalChild M root child st).1.sp = st.sp := by
  unfold evalChild
  unfold childOpcodes at noUse
  split at noUse
  next own =>
    rw [if_pos own]
    exact ih st noUse
  next foreign => rw [if_neg foreign]

theorem eval_sp (ir : Ir) (st : State Address Value Mem World)
    (noUse : ∀ opcode ∈ ir.visited, usesStackPointer opcode = false) :
    (eval M ir st).1.sp = st.sp := by
  induction ir generalizing st with
  | null => rfl
  | node opcode size id root left right ihLeft ihRight =>
    rw [visited_node, List.forall_mem_cons, List.forall_mem_append] at noUse
    obtain ⟨here, inLeft, inRight⟩ := noUse
    rw [eval_node]
    dsimp only
    rw [memoize, apply_sp M here, evalChild_sp M ihRight inRight, evalChild_sp M ihLeft inLeft]

theorem evalChild_alike {root : Nat} {child : Ir}
    (ih : ∀ {st st' : State Address Value Mem World}, Agree next st st' →
      (st.sp = st'.sp ∨ ∀ opcode ∈ child.visited, usesStackPointer opcode = false) →
      Alike next st st' (eval M child st) (eval M child st'))
    (made : child.MadeBefore next) (agree : Agree next st st')
    (sp : st.sp = st'.sp ∨ ∀ opcode ∈ childOpcodes root child, usesStackPointer opcode = false) :
    Alike next st st' (evalChild M root child st) (evalChild M root child st') := by
  unfold evalChild
  unfold childOpcodes at sp
  split at sp
  next own =>
    rw [if_pos own, if_pos own]
    exact ih agree sp
  next foreign =>
    rw [if_neg foreign, if_neg foreign]
    exact ⟨remembered_eq M made agree, agree, id⟩

/-- A tree that does not use the stack pointer has the same value and effect for
different stack pointers; any tree has for the same. -/
theorem eval_alike (made : ir.MadeBefore next) (agree : Agree next st st')
    (sp : st.sp = st'.sp ∨ ∀ opcode ∈ ir.visited, usesStackPointer opcode = false) :
    Alike next st st' (eval M ir st) (eval M ir st') := by
  induction ir generalizing st st' with
  | null => exact ⟨rfl, agree, id⟩
  | node opcode size id root left right ihLeft ihRight =>
    obtain ⟨_, madeLeft, madeRight⟩ := made
    rw [visited_node, List.forall_mem_cons, List.forall_mem_append] at sp
    have first : Alike next st st' (evalChild M root left st) (evalChild M root left st') :=
      evalChild_alike M (ihLeft madeLeft) madeLeft agree (sp.imp_right fun noUse => noUse.2.1)
    have second := @evalChild_alike _ _ _ _ _ M _ _ _ root _ (ihRight madeRight) madeRight first.agree
      (sp.imp first.sp fun noUse => noUse.2.2)
    have sames (same : st.sp = st'.sp) := second.sp (first.sp same)
    have third := @apply_alike _ _ _ _ _ M _ _ _ opcode second.agree
      (sp.imp sames fun noUse => noUse.1) size (evalChild M root left st).2
      (evalChild M root right (evalChild M root left st).1).2
    rw [eval_node, eval_node]
    dsimp only
    rw [← first.value, ← second.value]
    exact ⟨third.value, third.agree.memoize third.value, fun same => third.sp (sames same)⟩

/-! ## A push and its store -/

def addressIr (delta : Int) (nextId root : Nat) : Ir :=
  .node .add pointersize (nextId + 2) root
    (.node .getsp pointersize nextId root .null .null)
    (.node (.const delta) wordsize (nextId + 1) root .null .null)

theorem eval_addressIr (delta : Int) (new : next ≤ nextId) (root : Nat) (agree : Agree next st st') :
    Agree next st (eval M (addressIr delta nextId root) st').1 ∧
      (eval M (addressIr delta nextId root) st').1.sp = st'.sp ∧
      M.address (eval M (addressIr delta nextId root) st').2 = st'.sp + M.offset delta := by
  have getsp : evalChild M root (.node .getsp pointersize nextId root .null .null) st' =
      eval M (.node .getsp pointersize nextId root .null .null) st' :=
    evalChild_own M rfl st'
  have const (st : State Address Value Mem World) :
      evalChild M root (.node (.const delta) wordsize (nextId + 1) root .null .null) st =
        eval M (.node (.const delta) wordsize (nextId + 1) root .null .null) st :=
    evalChild_own M rfl st
  unfold addressIr
  rw [eval_node, getsp]
  dsimp only
  rw [const]
  simp only [eval_node, evalChild_null, apply]
  refine ⟨?_, rfl, ?_⟩
  · refine Agree.memoize_new (Nat.le_add_right_of_le new) ?_
    refine Agree.memoize_new (Nat.le_add_right_of_le new) ?_
    exact Agree.memoize_new new agree
  · rw [M.address_add, M.address_pointer, M.address_const]

/-- A push becomes a store below the stack pointer, which stays. -/
theorem push_step {size : Nat} {left : Ir} {delta : Int} (made : left.MadeBefore next)
    (noUse : ∀ opcode ∈ childOpcodes root left, usesStackPointer opcode = false)
    (new : next ≤ nextId) (agree : Agree next st st')
    (apart : st'.sp + M.offset delta = st.sp - M.offset size) :
    Agree next (eval M (.node .push size id root left .null) st).1
        (eval M (storeIr delta nextId (.node .push size id root left .null)) st').1 ∧
      (eval M (.node .push size id root left .null) st).1.sp = st.sp - M.offset size ∧
      (eval M (storeIr delta nextId (.node .push size id root left .null)) st').1.sp = st'.sp := by
  obtain ⟨kept, sp, address⟩ := eval_addressIr M delta new root agree
  have value : Alike next st (eval M (addressIr delta nextId root) st').1
      (evalChild M root left st)
      (evalChild M root left (eval M (addressIr delta nextId root) st').1) :=
    evalChild_alike M (fun agree sp => eval_alike M made agree sp) made kept (Or.inr noUse)
  have spPush : (evalChild M root left st).1.sp = st.sp :=
    evalChild_sp M (fun st noUse => eval_sp M left st noUse) noUse st
  have spStore : (evalChild M root left (eval M (addressIr delta nextId root) st').1).1.sp =
      st'.sp :=
    (evalChild_sp M (fun st noUse => eval_sp M left st noUse) noUse _).trans sp
  have unfolded : storeIr delta nextId (.node .push size id root left .null) =
      .node .store size id root (addressIr delta nextId root) left := rfl
  have child : evalChild M root (addressIr delta nextId root) st' =
      eval M (addressIr delta nextId root) st' :=
    evalChild_own M rfl st'
  rw [unfolded, eval_node, eval_node, child]
  dsimp only [apply]
  rw [evalChild_null]
  refine ⟨Agree.memoize ⟨?_, value.agree.world, value.agree.memo⟩ rfl, ?_, spStore⟩
  · dsimp only
    rw [spPush, address, apart, value.value, value.agree.mem]
  · rw [memoize]
    exact congrArg (· - M.offset size) spPush

/-! ## A run -/

def SafePush (next : Nat) (ir : Ir) : Prop :=
  ∃ size id root left, ir = .node .push size id root left .null ∧ left.MadeBefore next ∧
    ∀ opcode ∈ childOpcodes root left, usesStackPointer opcode = false

theorem lowerRun_nextId (pushes : List Ir) (nextId : Nat) :
    nextId ≤ (lowerRun pushes nextId).2.2 := by
  induction pushes with
  | nil => exact Nat.le_refl nextId
  | cons ir pushes ih => exact Nat.le_add_right_of_le ih

/-- The stack pointer is kept where the pushes leave it. -/
theorem run_stores {pushes : List Ir} (safe : ∀ ir ∈ pushes, SafePush next ir) (new : next ≤ nextId)
    (agree : Agree next st st') (apart : st'.sp + M.offset (lowerRun pushes nextId).2.1 = st.sp) :
    Agree next (run M pushes st) (run M (lowerRun pushes nextId).1 st') ∧
      (run M pushes st).sp = (run M (lowerRun pushes nextId).1 st').sp := by
  induction pushes generalizing st st' with
  | nil =>
    rw [lowerRun, map_zero, add_zero] at apart
    exact ⟨agree, apart.symm⟩
  | cons ir pushes ih =>
    obtain ⟨push, others⟩ := List.forall_mem_cons.1 safe
    obtain ⟨size, id, root, left, rfl, made, noUse⟩ := push
    rw [lowerRun, Ir.size, map_add] at apart
    have below : st'.sp + M.offset (lowerRun pushes nextId).2.1 = st.sp - M.offset size := by
      rw [← apart]
      abel
    obtain ⟨agree, sp, sp'⟩ := push_step M made noUse
      (Nat.le_trans new (lowerRun_nextId pushes nextId)) agree below
    exact ih others agree (by rw [sp, sp', below])

theorem eval_adjustIr (delta : Int) (new : next ≤ nextId) (agree : Agree next st st') :
    Agree next st (eval M (adjustIr delta nextId) st').1 ∧
      (eval M (adjustIr delta nextId) st').1.sp = st'.sp - M.offset delta := by
  have const : evalChild M (nextId + 1)
      (.node (.const (-delta)) wordsize nextId (nextId + 1) .null .null) st' =
        eval M (.node (.const (-delta)) wordsize nextId (nextId + 1) .null .null) st' :=
    evalChild_own M rfl st'
  unfold adjustIr
  rw [eval_node, const]
  simp only [eval_node, evalChild_null, apply]
  constructor
  · refine Agree.memoize_new (Nat.le_add_right_of_le new) ?_
    have first : Agree next st (memoize nextId (st', M.const wordsize (-delta))) :=
      agree.memoize_new new
    exact ⟨first.mem, first.world, first.memo⟩
  · rw [memoize, memoize]
    rw [M.address_const, map_neg, ← sub_eq_add_neg]

theorem run_append (irs irs' : List Ir) (st : State Address Value Mem World) :
    run M (irs ++ irs') st = run M irs' (run M irs st) :=
  List.foldl_append

theorem run_lowered {pushes : List Ir} (safe : ∀ ir ∈ pushes, SafePush next ir)
    (new : next ≤ nextId) (same : Same next st st') :
    Same next (run M pushes st)
      (run M (adjustIr (lowerRun pushes nextId).2.1 (lowerRun pushes nextId).2.2 ::
        (lowerRun pushes nextId).1) st') := by
  obtain ⟨agree, sp⟩ := eval_adjustIr M (lowerRun pushes nextId).2.1
    (Nat.le_trans new (lowerRun_nextId pushes nextId)) (Agree.mk same.mem same.world same.memo)
  obtain ⟨agree, sp⟩ := run_stores M safe new agree (by rw [sp, sub_add_cancel, same.sp])
  exact ⟨sp, agree.mem, agree.world, agree.memo⟩

theorem eval_same (made : ir.MadeBefore next) (same : Same next st st') :
    Same next (eval M ir st).1 (eval M ir st').1 := by
  have alike := eval_alike M made (Agree.mk same.mem same.world same.memo) (Or.inl same.sp)
  exact ⟨alike.sp same.sp, alike.agree.mem, alike.agree.world, alike.agree.memo⟩

end AckFormal.Mcg.LoweredRuns
