import AckFormal.Mcg.LoweredRuns

/-!
# Lowered blocks

A lowered block keeps its instructions, except that it has an adjustment and as many
stores in the place of some of its runs of pushes.  The cursor stands behind what has
been lowered.
-/

namespace AckFormal.Mcg.LoweredBlocks

open AckFormal.Data LowerPushes LoweredRuns

def safePush (ir : Ir) : Bool := ir.opcode = some .push && !accessesStackPointer ir

def replacement (pushes : List Ir) (nextId : Nat) : List Ir :=
  adjustIr (lowerRun pushes nextId).2.1 (lowerRun pushes nextId).2.2 :: (lowerRun pushes nextId).1

/-- A block and what it becomes.  A run ends where no push that passes the test
follows. -/
inductive Lowered (next : Nat) : List Ir → List Ir → Prop where
  | nil : Lowered next [] []
  | other {ir : Ir} {irs irs' : List Ir} (kept : ir.opcode ≠ some .push)
      (rest : Lowered next irs irs') : Lowered next (ir :: irs) (ir :: irs')
  | replaced {first : Ir} {pushes irs irs' : List Ir} {nextId : Nat}
      (all : ∀ ir ∈ first :: pushes, ir.opcode = some .push)
      (maximal : ∀ ir ∈ irs.head?, safePush ir = false) (new : next ≤ nextId)
      (rest : Lowered next irs irs') :
      Lowered next (first :: pushes ++ irs) (replacement (first :: pushes) nextId ++ irs')

variable {next : Nat} {irs : List Ir} {ir : Ir}

theorem Formed.of_subset {part : List Ir} (formed : Formed next irs)
    (subset : ∀ ir ∈ part, ir ∈ irs) : Formed next part where
  made ir member := formed.made ir (subset ir member)
  roots ir member := formed.roots ir (subset ir member)
  unary ir member := formed.unary ir (subset ir member)
  values ir member := formed.values ir (subset ir member)

theorem Formed.left {irs' : List Ir} (formed : Formed next (irs ++ irs')) : Formed next irs :=
  Formed.of_subset formed fun _ member => List.mem_append_left irs' member

theorem Formed.right {irs' : List Ir} (formed : Formed next (irs ++ irs')) : Formed next irs' :=
  Formed.of_subset formed fun _ member => List.mem_append_right irs member

theorem descendants_push (size id root : Nat) (left : Ir) :
    (Ir.node .push size id root left .null).descendants = childOpcodes root left :=
  List.append_nil (childOpcodes root left)

theorem Formed.safePush (formed : Formed next irs) (member : ir ∈ irs)
    (push : ir.opcode = some .push) : SafePush next ir := by
  obtain ⟨size, id, root, left, rfl⟩ := formed.unary ir member push
  have values := formed.values _ member push
  rw [descendants_push] at values
  exact ⟨size, id, root, left, rfl, (formed.made _ member).2.1, values⟩

theorem visited_noPush (here : ir.opcode ≠ some .push) (below : .push ∉ ir.descendants) :
    .push ∉ ir.visited := by
  cases ir with
  | null => exact nofun
  | node opcode size id root left right =>
    rw [visited_node, List.mem_cons, not_or]
    exact ⟨fun same => here (congrArg some same.symm), below⟩

theorem adjustIr_noPush (delta : Int) (nextId : Nat) : .push ∉ (adjustIr delta nextId).visited := by
  simp [adjustIr, Ir.visited]

theorem storeIr_noPush (delta : Int) (nextId size id root : Nat) {left : Ir}
    (below : .push ∉ childOpcodes root left) :
    .push ∉ (storeIr delta nextId (.node .push size id root left .null)).visited := by
  rw [storeIr, visited_node, List.mem_cons, List.mem_append, not_or, not_or]
  refine ⟨nofun, ?_, below⟩
  simp [childOpcodes, Ir.visited]

variable {pushes : List Ir}

theorem mem_stores {nextId : Nat} (member : ir ∈ (lowerRun pushes nextId).1) :
    ∃ push ∈ pushes, ∃ delta id, ir = storeIr delta id push := by
  induction pushes with
  | nil => cases member
  | cons push pushes ih =>
    obtain rfl | member := List.mem_cons.1 member
    · exact ⟨push, List.mem_cons_self, _, _, rfl⟩
    · obtain ⟨push', member, made⟩ := ih member
      exact ⟨push', List.mem_cons_of_mem push member, made⟩

theorem replacement_noPush (formed : Formed next pushes)
    (all : ∀ ir ∈ pushes, ir.opcode = some .push) (nextId : Nat) :
    ∀ ir ∈ replacement pushes nextId, .push ∉ ir.visited := by
  unfold replacement
  rw [List.forall_mem_cons]
  refine ⟨adjustIr_noPush _ _, fun ir member => ?_⟩
  obtain ⟨push, inRun, delta, id, rfl⟩ := mem_stores member
  have roots := formed.roots push inRun
  obtain ⟨size, id, root, left, rfl⟩ := formed.unary push inRun (all push inRun)
  rw [descendants_push] at roots
  exact storeIr_noPush delta _ size id root roots

namespace Lowered

variable {next : Nat} {irs irs' : List Ir}

section

variable {Address Value Mem World : Type} [AddCommGroup Address]
  (M : Machine Address Value Mem World)

theorem same (lowered : Lowered next irs irs') (formed : Formed next irs)
    {st st' : State Address Value Mem World} (same : Same next st st') :
    Same next (run M irs st) (run M irs' st') := by
  induction lowered generalizing st st' with
  | nil => exact same
  | @other ir irs irs' kept rest ih =>
    have here : ir.MadeBefore next := formed.made ir List.mem_cons_self
    exact ih (Formed.of_subset formed fun _ member => List.mem_cons_of_mem ir member)
      (eval_same M here same)
  | @replaced first pushes irs irs' nextId all maximal new rest ih =>
    have safe (ir : Ir) (member : ir ∈ first :: pushes) : SafePush next ir :=
      Formed.safePush formed (List.mem_append_left irs member) (all ir member)
    rw [run_append, run_append]
    exact ih (Formed.right formed) (run_lowered M safe new same)

end

theorem whole {first : Ir} {nextId : Nat}
    (all : ∀ ir ∈ first :: pushes, ir.opcode = some .push) (new : next ≤ nextId) :
    Lowered next (first :: pushes) (replacement (first :: pushes) nextId) := by
  have ends : ∀ ir ∈ ([] : List Ir).head?, safePush ir = false := by simp
  have lowered := Lowered.replaced all ends new .nil
  rwa [List.append_nil, List.append_nil] at lowered

variable (lowered : Lowered next irs irs')
include lowered

/-- A block and its lowering can be cut where no run is cut. -/
theorem cut {before after : List Ir}
    (parts : irs = before ++ after) (outside : OutsideRuns before after) :
    ∃ before' after', irs' = before' ++ after' ∧ Lowered next before before' ∧
      Lowered next after after' := by
  induction lowered generalizing before with
  | nil =>
    obtain ⟨rfl, rfl⟩ := List.nil_eq_append_iff.1 parts
    exact ⟨[], [], rfl, .nil, .nil⟩
  | @other ir irs irs' kept rest ih =>
    cases before with
    | nil =>
      obtain rfl : ir :: irs = after := parts
      exact ⟨[], ir :: irs', rfl, .nil, .other kept rest⟩
    | cons head before =>
      obtain ⟨rfl, behind⟩ := List.cons.inj parts
      have inner : OutsideRuns before after := by
        rintro ⟨⟨last, isLast, push⟩, follows⟩
        exact outside ⟨⟨last, List.mem_getLast?_cons isLast, push⟩, follows⟩
      obtain ⟨before', after', rfl, left, right⟩ := ih behind inner
      exact ⟨ir :: before', after', rfl, .other kept left, right⟩
  | @replaced first pushes irs irs' nextId all maximal new rest ih =>
    obtain ⟨tail, rfl, behind⟩ | ⟨tail, within, rfl⟩ := List.append_eq_append_iff.1 parts
    · have inner : OutsideRuns tail after := by
        rintro ⟨⟨last, isLast, push⟩, follows⟩
        exact outside ⟨⟨last, List.mem_getLast?_append_of_mem_getLast? isLast, push⟩, follows⟩
      obtain ⟨before', after', rfl, left, right⟩ := ih behind inner
      have ends (ir : Ir) (isHead : ir ∈ tail.head?) : safePush ir = false := by
        refine maximal ir ?_
        rw [behind]
        exact List.mem_head?_append_of_mem_head? isHead
      refine ⟨replacement (first :: pushes) nextId ++ before', after', ?_,
        .replaced all ends new left, right⟩
      rw [List.append_assoc]
    · -- a cut in a run is at one of its ends
      cases tail with
      | nil =>
        rw [List.append_nil] at within
        exact ⟨replacement (first :: pushes) nextId, irs', rfl, within ▸ whole all new, rest⟩
      | cons middle tail =>
        obtain rfl | ⟨before, last, rfl⟩ := List.eq_nil_or_concat before
        · refine ⟨[], _, rfl, .nil, ?_⟩
          rw [← show first :: pushes = middle :: tail from within]
          exact .replaced all maximal new rest
        · rw [within] at all
          have pushLast : last.opcode = some .push := all last (by simp)
          have pushMiddle : middle.opcode = some .push := all middle (by simp)
          exact absurd ⟨⟨last, by simp, pushLast⟩, middle, rfl, pushMiddle⟩ outside

theorem head :
    ∀ ir ∈ irs.head?, ir.opcode ≠ some .push → irs'.head? = some ir := by
  cases lowered with
  | nil => exact nofun
  | other kept rest => exact fun _ first _ => first
  | @replaced first pushes irs irs' nextId all maximal new rest =>
    rintro ir isFirst noPush
    obtain rfl : first = ir := Option.some.inj isFirst
    exact absurd (all first List.mem_cons_self) noPush

theorem eq_nil (empty : irs = []) : irs' = [] := by
  cases lowered with
  | nil => rfl
  | other kept rest => cases empty
  | replaced all maximal new rest => cases empty

theorem noPush (formed : Formed next irs) :
    ∀ ir ∈ irs', Opcode.push ∉ ir.visited := by
  induction lowered with
  | nil => exact nofun
  | @other ir irs irs' kept rest ih =>
    rw [List.forall_mem_cons]
    refine ⟨?_, ih (Formed.of_subset formed fun _ member => List.mem_cons_of_mem ir member)⟩
    exact visited_noPush kept (formed.roots ir List.mem_cons_self)
  | @replaced first pushes irs irs' nextId all maximal new rest ih =>
    rw [List.forall_mem_append]
    exact ⟨replacement_noPush (Formed.left formed) all nextId, ih (Formed.right formed)⟩

theorem preserved (formed : Formed next irs) :
    Preserved next irs irs' where
  noPush := lowered.noPush formed
  same before after parts outside := by
    obtain ⟨before', after', parts', left, right⟩ := lowered.cut parts outside
    rw [parts] at formed
    refine ⟨before', after', parts', right.head, right.eq_nil, ?_⟩
    intro Address Value Mem World _ M st
    exact left.same M (Formed.left formed) ⟨rfl, rfl, rfl, fun _ _ => rfl⟩

end Lowered

end AckFormal.Mcg.LoweredBlocks

/-!
## The pass over a procedure

At each step the cursor is behind what has been lowered, and what is before it in the
block has not been changed yet.
-/

namespace AckFormal.Mcg.LoweredProcedures

open AckFormal.Data LowerPushes LoweredRuns LoweredBlocks

theorem runEnd_eq (irs : List Ir) (cursor : Nat) :
    runEnd irs cursor = cursor + (irs.takeWhile safePush).length := by
  induction irs generalizing cursor with
  | nil => rfl
  | cons ir irs ih =>
    unfold runEnd
    split
    next other =>
      rw [List.takeWhile_cons_of_neg (by simp [safePush, other]), List.length_nil, Nat.add_zero]
    next push =>
      rw [not_not] at push
      split
      next accesses =>
        rw [List.takeWhile_cons_of_neg (by simp [safePush, accesses]), List.length_nil,
          Nat.add_zero]
      next safe =>
        rw [List.takeWhile_cons_of_pos (by simp [safePush, push, safe]), ih, List.length_cons]
        omega

theorem length_stores (pushes : List Ir) (nextId : Nat) :
    (lowerRun pushes nextId).1.length = pushes.length := by
  induction pushes with
  | nil => rfl
  | cons ir pushes ih => exact congrArg (· + 1) ih

theorem length_replacement (pushes : List Ir) (nextId : Nat) :
    (replacement pushes nextId).length = pushes.length + 1 :=
  congrArg (· + 1) (length_stores pushes nextId)

variable {ir : Ir}

theorem considerPush_other (other : ir.opcode ≠ some .push) (done rest : List Ir) (nextId : Nat) :
    considerPush ir ⟨done ++ ir :: rest, done.length, nextId⟩ =
      ⟨(done ++ [ir]) ++ rest, (done ++ [ir]).length, nextId⟩ := by
  rw [considerPush, if_pos other, List.append_assoc, List.length_append]
  rfl

theorem considerPush_run (push : ir.opcode = some .push) (done rest : List Ir) (nextId : Nat) :
    considerPush ir ⟨done ++ ir :: rest, done.length, nextId⟩ =
      ⟨(done ++ replacement (ir :: rest.takeWhile safePush) nextId) ++ rest.dropWhile safePush,
        (done ++ replacement (ir :: rest.takeWhile safePush) nextId).length,
        (lowerRun (ir :: rest.takeWhile safePush) nextId).2.2 + 2⟩ := by
  obtain ⟨pushes, isRun⟩ : ∃ pushes, rest.takeWhile safePush = pushes := ⟨_, rfl⟩
  obtain ⟨after, isAfter⟩ : ∃ after, rest.dropWhile safePush = after := ⟨_, rfl⟩
  have parts : done ++ ir :: rest = (done ++ ir :: pushes) ++ after := by
    rw [← isRun, ← isAfter, List.append_assoc, List.cons_append, List.takeWhile_append_dropWhile]
  have follow : (done ++ ir :: rest).drop (done.length + 1) = rest := by
    rw [← List.singleton_append, ← List.append_assoc]
    exact List.drop_left' (by rw [List.length_append, List.length_singleton])
  have cursor : (done ++ ir :: pushes).length = done.length + 1 + pushes.length := by
    rw [List.length_append, List.length_cons, Nat.add_right_comm, Nat.add_assoc]
  have length : (done ++ replacement (ir :: pushes) nextId).length =
      done.length + 1 + pushes.length + 1 := by
    rw [List.length_append, length_replacement, List.length_cons]
    omega
  rw [considerPush, if_neg (not_not.2 push)]
  dsimp only
  rw [follow, runEnd_eq, isRun, isAfter, length, parts, List.take_left' cursor,
    List.drop_left' cursor, List.append_assoc done, List.take_left, List.drop_left]
  rw [Arrays.insert, List.append_assoc done, List.take_left, List.drop_left, replacement,
    List.append_assoc done, List.cons_append]

/-! ## Runs -/

structure Finished (done todo : List Ir) (nextId : Nat) (st : Lowering) : Prop where
  lowered : ∃ todo', st.irs = done ++ todo' ∧ ∀ next ≤ nextId, Lowered next todo todo'
  nextId : nextId ≤ st.nextId

theorem head_dropWhile (irs : List Ir) :
    ∀ ir ∈ (irs.dropWhile safePush).head?, safePush ir = false := by
  intro ir isHead
  have fails := List.head?_dropWhile_not safePush irs
  rw [isHead] at fails
  simpa using fails

section

variable {done rest : List Ir} {nextId : Nat} {st : Lowering}

theorem Finished.other {ir : Ir}
    (kept : ir.opcode ≠ some .push) (finished : Finished (done ++ [ir]) rest nextId st) :
    Finished done (ir :: rest) nextId st where
  lowered := by
    obtain ⟨todo', isTodo', lowered⟩ := finished.lowered
    refine ⟨ir :: todo', ?_, fun next old => .other kept (lowered next old)⟩
    rw [isTodo', List.append_assoc, List.singleton_append]
  nextId := finished.nextId

theorem Finished.run (push : ir.opcode = some .push)
    (finished : Finished (done ++ replacement (ir :: rest.takeWhile safePush) nextId)
      (rest.dropWhile safePush) ((lowerRun (ir :: rest.takeWhile safePush) nextId).2.2 + 2) st) :
    Finished done (ir :: rest) nextId st where
  lowered := by
    obtain ⟨todo', isTodo', lowered⟩ := finished.lowered
    have later := lowerRun_nextId (ir :: rest.takeWhile safePush) nextId
    have all (other : Ir) (member : other ∈ ir :: rest.takeWhile safePush) :
        other.opcode = some .push := by
      obtain rfl | member := List.mem_cons.1 member
      · exact push
      · have safe := List.all_eq_true.1 List.all_takeWhile other member
        rw [safePush, Bool.and_eq_true] at safe
        exact of_decide_eq_true safe.1
    have parts : ir :: rest = ir :: rest.takeWhile safePush ++ rest.dropWhile safePush := by
      rw [List.cons_append, List.takeWhile_append_dropWhile]
    refine ⟨replacement (ir :: rest.takeWhile safePush) nextId ++ todo', ?_, fun next old => ?_⟩
    · rw [isTodo', List.append_assoc]
    · rw [parts]
      exact .replaced all (head_dropWhile rest) old (lowered next (by omega))
  nextId :=
    Nat.le_trans (Nat.le_add_right_of_le (lowerRun_nextId (ir :: rest.takeWhile safePush) nextId))
      finished.nextId

end

theorem lowerBlock_finished (fuel : Nat) {todo : List Ir} (enough : todo.length < fuel)
    (done : List Ir) (nextId : Nat) :
    ∃ st, lowerBlock fuel ⟨done ++ todo, done.length, nextId⟩ = some st ∧
      Finished done todo nextId st := by
  induction fuel generalizing todo done nextId with
  | zero => exact absurd enough (Nat.not_lt_zero _)
  | succ fuel ih =>
    cases todo with
    | nil =>
      have behind : (done ++ [])[done.length]? = none := by simp
      rw [lowerBlock, behind]
      exact ⟨_, rfl, ⟨[], rfl, fun _ _ => .nil⟩, Nat.le_refl nextId⟩
    | cons ir rest =>
      have here : (done ++ ir :: rest)[done.length]? = some ir := by simp
      have shorter : rest.length < fuel := Nat.lt_of_succ_lt_succ enough
      rw [lowerBlock, here]
      dsimp only
      by_cases push : ir.opcode = some .push
      · rw [considerPush_run push]
        have after : (rest.dropWhile safePush).length < fuel :=
          Nat.lt_of_le_of_lt (List.dropWhile_sublist safePush).length_le shorter
        obtain ⟨st, result, finished⟩ := ih after _ _
        exact ⟨st, result, finished.run push⟩
      · rw [considerPush_other push]
        obtain ⟨st, result, finished⟩ := ih shorter (done ++ [ir]) nextId
        exact ⟨st, result, finished.other push⟩

def Correct (next : Nat) (irs irs' : List Ir) : Prop :=
  Lowered next irs irs' ∧ (Formed next irs → Preserved next irs irs')

theorem lowerPushes_blocks {fuel : Nat} {blocks : List (List Ir)}
    (enough : ∀ irs ∈ blocks, irs.length < fuel) {next nextId : Nat} (old : next ≤ nextId) :
    ∃ blocks' nextId', lowerPushes fuel blocks nextId = some (blocks', nextId') ∧
      List.Forall₂ (Correct next) blocks blocks' := by
  induction blocks generalizing nextId with
  | nil => exact ⟨[], nextId, rfl, .nil⟩
  | cons irs blocks ih =>
    obtain ⟨here, others⟩ := List.forall_mem_cons.1 enough
    obtain ⟨st, result, finished⟩ := lowerBlock_finished fuel here [] nextId
    obtain ⟨irs', isIrs', lowered⟩ := finished.lowered
    obtain ⟨blocks', nextId', results, correct⟩ := ih others (Nat.le_trans old finished.nextId)
    have block : Lowered next irs st.irs := isIrs' ▸ lowered next old
    have first : lowerBlock fuel ⟨irs, 0, nextId⟩ = some st := result
    refine ⟨st.irs :: blocks', nextId', ?_, .cons ⟨block, block.preserved⟩ correct⟩
    rw [lowerPushes, first]
    dsimp only
    rw [results]

/-- The pass terminates.  It replaces every maximal run of pushes, and with the
exception of the places inside runs it does not change the stack pointer, the bytes or
the values. -/
theorem lowerPushes_correct {fuel : Nat} {blocks : List (List Ir)}
    (enough : ∀ irs ∈ blocks, irs.length < fuel) (nextId : Nat) :
    ∃ blocks' nextId', lowerPushes fuel blocks nextId = some (blocks', nextId') ∧
      List.Forall₂ (Correct nextId) blocks blocks' :=
  lowerPushes_blocks enough (Nat.le_refl nextId)

def twoPushes : List Ir :=
  [.node (.other 0) 4 0 0 .null .null,
    .node .push 4 2 2 (.node (.const 7) 4 1 2 .null .null) .null,
    .node .push 1 4 4 (.node (.other 1) 1 3 4 (.node (.other 0) 4 0 0 .null .null) .null) .null,
    .node .call 4 5 5 .null .null]

theorem twoPushes_formed : Formed 6 twoPushes where
  made := by simp [twoPushes, Ir.MadeBefore]
  roots := by decide
  unary := by simp [twoPushes, Ir.opcode]
  values := by decide

theorem twoPushes_preserved :
    ∃ irs' nextId', lowerPushes 5 [twoPushes] 6 = some ([irs'], nextId') ∧
      Preserved 6 twoPushes irs' := by
  obtain ⟨blocks', nextId', results, correct⟩ :=
    @lowerPushes_correct 5 [twoPushes] (by decide) 6
  cases correct with
  | cons here others =>
    cases others
    exact ⟨_, nextId', results, here.2 twoPushes_formed⟩

end AckFormal.Mcg.LoweredProcedures
