import AckFormal.Mcg.TreebuilderSimulation
import Mathlib.Data.List.Forall2

/-!
# The tree builder simulates EM blocks

Each instruction keeps the agreement between the EM machine and the builder,
with two exceptions that are excluded by `StepFit`: an `asp` that makes room on
the real stack while values wait on the stack of the compiler, and a `sti` of
one word that meets an item of two words.
-/

namespace AckFormal.Mcg.TreebuilderInsns

open IrMachine Treebuilder TreebuilderSimulation

section

variable {Word Mem : Type} {M : Machine Word Mem} {start : State Word Mem}

/-! ## Calls -/

theorem effect_op1 {opcode : Op1} (none : ∀ mem size value, evalOp1 M mem size opcode value = none)
    (id size : Nat) (left : Ir) : Effect M (.ir1 id opcode size left) := by
  intro memo mem fresh
  rw [eval, fresh, Option.none_or]
  cases eval M memo mem left with
  | none => rfl
  | some value => exact none mem size value

variable {tb : Builder} {st : State Word Mem} {value : Value Word} {stack stack' : List Word}
  {em : EmState Word Mem} {a w : Word}

theorem append_push (runs : Runs M start tb st) {ir : Ir} (inHand : InHand M tb st ir value) :
    ∃ st', Runs M start (appendir (newIr1 .push ir.size ir tb).1 (newIr1 .push ir.size ir tb).2) st' ∧
      Keeps M tb st (appendir (newIr1 .push ir.size ir tb).1 (newIr1 .push ir.size ir tb).2) st' ∧
      st'.stack = value.words ++ st.stack := by
  have performed : perform M st (newIr1 .push ir.size ir tb).1 = some { st with
      stack := value.words ++ st.stack
      memo := remember M st.memo st.mem ir } := by
    simp only [newIr1, perform, inHand.known]
  have grown : ∀ node, (remember M st.memo st.mem ir node).isSome →
      (st.memo node).isSome ∨ node.id < tb.next + 1 := by
    intro node some
    exact (remember_cases M some).imp id fun member => Nat.lt_succ_of_lt (inHand.below node member)
  refine ⟨_, runs.append_fresh _ (Nat.le_refl _) (Nat.lt_succ_self _) rfl performed grown
    (fun _ some => remember_isSome M some) (Or.inr (effect_op1 (fun _ _ _ => rfl) _ _ _)),
    ⟨?_, rfl, rfl, ?_⟩, rfl⟩
  · rw [appendir_next]
    exact Nat.le_succ _
  · intro node _
    exact eval_remember M st.memo st.mem ir node

theorem pushAll_runs (runs : Runs M start tb st) {irs : List Ir} {values : List (Value Word)}
    (inHand : List.Forall₂ (InHand M tb st) irs values) :
    ∃ st', Runs M start (pushAll irs tb) st' ∧ Keeps M tb st (pushAll irs tb) st' ∧
      st'.stack = values.reverse.flatMap Value.words ++ st.stack := by
  induction irs generalizing tb st values with
  | nil =>
    cases inHand
    exact ⟨st, runs, Keeps.refl tb st, rfl⟩
  | cons ir irs ih =>
    cases inHand with
    | @cons _ value _ values head tail =>
      obtain ⟨st₁, runs₁, keeps₁, stack₁⟩ := append_push runs head
      obtain ⟨st₂, runs₂, keeps₂, stack₂⟩ :=
        ih runs₁ (tail.imp fun _ _ inHand => inHand.keeps keeps₁)
      refine ⟨st₂, runs₂, keeps₁.trans keeps₂, ?_⟩
      rw [stack₂, stack₁, List.reverse_cons, List.flatMap_append, List.flatMap_singleton,
        List.append_assoc]

section

variable (sim : Sim M start tb st stack)
include sim

theorem Sim.values :
    ∃ values, List.Forall₂ (InHand M tb st) tb.stack values ∧
      stack = values.flatMap Value.words ++ st.stack := by
  obtain ⟨words, holds, same⟩ := sim.holds
  have below := sim.below
  rw [same]
  clear same sim
  generalize tb.stack = irs at holds below
  induction holds with
  | nil => exact ⟨[], .nil, rfl⟩
  | @cons ir value rest words known sized _ ih =>
    obtain ⟨values, hands, split⟩ :=
      ih fun other member => below other (List.mem_cons_of_mem ir member)
    refine ⟨value :: values, .cons ⟨known, sized, below ir List.mem_cons_self⟩ hands, ?_⟩
    rw [List.append_assoc, split, List.flatMap_cons, List.append_assoc]

/-- After `materialise_stack` everything is on the real stack. -/
theorem materialiseStack_sim :
    ∃ st', Sim M start (materialiseStack tb) st' stack ∧ st'.stack = stack ∧
      st'.mem = st.mem ∧ st'.calls = st.calls := by
  obtain ⟨values, hands, same⟩ := Sim.values sim
  obtain ⟨st', runs, keeps, moved⟩ := pushAll_runs sim.runs (List.forall₂_reverse_iff.mpr hands)
  rw [List.reverse_reverse, ← same] at moved
  refine ⟨st', ⟨runs.newer rfl (Nat.le_refl _), ⟨[], .nil, moved.symm⟩, ?_, Nat.zero_le _⟩,
    moved, keeps.mem, keeps.calls⟩
  intro ir member
  cases member

/-- A root without a value that changes neither the memo nor, if it changes the
memory, leaves trees on the stack. -/
theorem append_effect {opcode : Op1} {op0 : Op0} {size size0 : Nat}
    {mem : Mem} {calls : List (String × List Word)}
    (effect : ∀ mem size value, evalOp1 M mem size opcode value = none)
    (performed : perform M st (.ir1 (tb.next + 1) opcode size (.ir0 tb.next op0 size0)) =
      some { stack := stack', mem := mem, calls := calls, memo := st.memo }) {stack'' : List Word}
    (holds : ∃ words, Holds M { stack := stack', mem := mem, calls := calls, memo := st.memo }
      tb.stack words ∧ stack'' = words ++ stack') :
    ∃ st', Sim M start (appendir (newIr1 opcode size (newIr0 op0 size0 tb).1 (newIr0 op0 size0 tb).2).1
        (newIr1 opcode size (newIr0 op0 size0 tb).1 (newIr0 op0 size0 tb).2).2) st' stack'' ∧
      st'.mem = mem ∧ st'.calls = calls := by
  have runs := sim.runs.append_fresh
    (newIr1 opcode size (newIr0 op0 size0 tb).1 (newIr0 op0 size0 tb).2).2
    (Nat.le_succ _) (Nat.lt_succ_self _) rfl performed
    (fun _ some => Or.inl some) (fun _ some => some) (Or.inr (effect_op1 effect _ _ _))
  refine ⟨_, ⟨runs, ?_, ?_, ?_⟩, rfl, rfl⟩
  · rw [appendir_stack]
    exact holds
  · rw [appendir_stack, appendir_next]
    intro ir member
    exact (sim.below ir member).mono (Nat.le_trans (Nat.le_succ _) (Nat.le_succ _))
  · rw [appendir_stack]
    exact sim.room

theorem call_sim (name : String) :
    ∃ st', Sim M start (Treebuilder.call name tb) st' (M.call name st.mem stack).2 ∧
      st'.mem = (M.call name st.mem stack).1 ∧ st'.calls = st.calls ++ [(name, stack)] := by
  obtain ⟨st₁, sim₁, moved, mem, calls⟩ := materialiseStack_sim sim
  have called : perform M st₁ (.ir1 ((materialiseStack tb).next + 1) .call 0
      (.ir0 (materialiseStack tb).next (.label name) pointersize)) = some
      { stack := (M.call name st.mem stack).2
        mem := (M.call name st.mem stack).1
        calls := st.calls ++ [(name, stack)]
        memo := st₁.memo } := by
    rw [perform, moved, mem, calls]
  exact append_effect sim₁ (fun _ _ _ => rfl) called ⟨[], .nil, rfl⟩

end

/-! ## Adjusting the stack pointer -/

theorem pop_words (sim : Sim M start tb st stack) {words : Nat} (few : words = 1 ∨ words = 2)
    (present : words ≤ stack.length) :
    ∃ ir tb' st', pop (words * wordsize) tb = .ok (ir, tb') ∧
      Sim M start tb' st' (stack.drop words) ∧ st'.mem = st.mem ∧ st'.calls = st.calls := by
  rcases few with rfl | rfl
  · obtain ⟨w, rest, rfl⟩ := List.exists_cons_of_length_pos present
    obtain ⟨ir, tb', st', popped, after, -, keeps⟩ := pop_value (.word w) sim
    exact ⟨ir, tb', st', popped, after, keeps.mem, keeps.calls⟩
  · obtain ⟨low, rest, rfl⟩ := List.exists_cons_of_length_pos (Nat.lt_of_succ_lt present)
    obtain ⟨high, rest, rfl⟩ := List.exists_cons_of_length_pos (Nat.lt_of_succ_lt_succ present)
    obtain ⟨ir, tb', st', popped, after, -, keeps⟩ := pop_value (.long low high) sim
    exact ⟨ir, tb', st', popped, after, keeps.mem, keeps.calls⟩

/-- The item on top of the stack of the compiler has one or two words. -/
theorem peek_words (sim : Sim M start tb st stack) (waiting : tb.stack ≠ []) :
    ∃ words, (words = 1 ∨ words = 2) ∧ peek tb 0 = words * wordsize ∧ words ≤ stack.length := by
  obtain ⟨ir, rest, isTop⟩ := List.exists_cons_of_ne_nil waiting
  obtain ⟨value, below, same, -, inHand⟩ := sim.uncons isTop
  have size : peek tb 0 = value.size := by
    rw [peek, isTop, inHand.sized]
    rfl
  rw [size, same]
  cases value with
  | word w => exact ⟨1, Or.inl rfl, rfl, Nat.succ_le_succ (Nat.zero_le _)⟩
  | long low high =>
    exact ⟨2, Or.inr rfl, rfl, Nat.succ_le_succ (Nat.succ_le_succ (Nat.zero_le _))⟩

/-- The loop of `asp`: it takes words off the stack of the compiler until enough
are gone or none are left. -/
theorem aspLoop_sim {rounds : Nat} (sim : Sim M start tb st stack) (words : Nat)
    (enough : words ≤ rounds) (present : words ≤ stack.length) :
    ∃ left tb' st', aspLoop rounds (words * wordsize : Nat) tb =
        .ok ((left * wordsize : Nat), tb') ∧ left ≤ words ∧
      Sim M start tb' st' (stack.drop (words - left)) ∧ (left = 0 ∨ tb'.stack = []) ∧
      st'.mem = st.mem ∧ st'.calls = st.calls := by
  induction rounds generalizing tb st stack words with
  | zero =>
    cases Nat.le_zero.mp enough
    exact ⟨0, tb, st, rfl, Nat.le_refl _, sim, Or.inl rfl, rfl, rfl⟩
  | succ rounds ih =>
    rw [aspLoop]
    split
    next go =>
      have positive : 0 < words := by
        have := go.1
        unfold wordsize at this
        omega
      obtain ⟨top, few, peeked, topPresent⟩ := peek_words sim go.2
      have taken : min (peek tb 0) ((words * wordsize : Nat) : Int).toNat =
          min top words * wordsize := by
        rw [peeked, Int.toNat_natCast, Nat.mul_min_mul_right]
      have fewTaken : min top words = 1 ∨ min top words = 2 := by omega
      obtain ⟨ir, tb₁, st₁, popped, sim₁, mem₁, calls₁⟩ :=
        pop_words sim fewTaken (Nat.le_trans (Nat.min_le_left _ _) topPresent)
      have restPresent : words - min top words ≤ (stack.drop (min top words)).length := by
        rw [List.length_drop]
        exact Nat.sub_le_sub_right present _
      obtain ⟨left, tb₂, st₂, looped, leftLe, sim₂, done, mem₂, calls₂⟩ :=
        ih sim₁ (words - min top words) (by omega) restPresent
      refine ⟨left, tb₂, st₂, ?_, by omega, ?_, done, mem₂.trans mem₁, calls₂.trans calls₁⟩
      · dsimp only
        rw [taken, popped]
        have rest : ((words * wordsize : Nat) : Int) - (min top words * wordsize : Nat) =
            ((words - min top words) * wordsize : Nat) := by
          rw [Nat.sub_mul, Int.ofNat_sub (Nat.mul_le_mul_right _ (Nat.min_le_right _ _))]
        change aspLoop rounds (((words * wordsize : Nat) : Int) -
          (min top words * wordsize : Nat)) tb₁ = _
        rw [rest, looped]
      · rw [List.drop_drop] at sim₂
        have total : min top words + (words - min top words - left) = words - left := by omega
        rw [total] at sim₂
        exact sim₂
    next stop =>
      refine ⟨words, tb, st, rfl, Nat.le_refl _, ?_, ?_, rfl, rfl⟩
      · rw [Nat.sub_self]
        exact sim
      · rcases Nat.eq_zero_or_pos words with none | positive
        · exact Or.inl none
        · refine Or.inr (not_not.mp fun waiting => stop ⟨?_, waiting⟩)
          unfold wordsize
          omega

/-! ## The instructions -/

variable (M start) in
/-- The builder has produced roots that do what the EM machine has done, up to
the values that wait on the stack of the compiler. -/
def Agrees (em : EmState Word Mem) (tb : Builder) : Prop :=
  ∃ st, Sim M start tb st em.stack ∧ st.mem = em.mem ∧ st.calls = em.calls

section

variable (sim : Sim M start tb st stack) (mem : st.mem = em.mem) (calls : st.calls = em.calls)
include sim mem calls

theorem agrees_of_sim : Agrees M start { em with stack := stack } tb :=
  ⟨st, sim, mem, calls⟩

theorem push_agrees {ir : Ir} (inHand : InHand M tb st ir value) :
    Outcome (push ir tb) (Agrees M start { em with stack := value.words ++ stack }) := by
  have outcome := push_outcome sim inHand
  unfold Outcome at outcome ⊢
  split at outcome
  next => exact agrees_of_sim outcome.1 mem calls
  next => exact outcome

end

theorem value_size_le (value : Value Word) : ¬ value.size > 2 * wordsize := by
  cases value with
  | word w => exact (by decide : ¬ wordsize > 2 * wordsize)
  | long low high => exact Nat.lt_irrefl _

theorem simpleAlu2_agrees (irop : Op2) (a b value : Value Word) (agrees : Agrees M start em tb)
    (operands : em.stack = b.words ++ (a.words ++ stack)) (sameSize : a.size = b.size)
    (known : evalOp2 M b.size irop a b = some value) (sized : value.size = b.size) :
    Outcome (simpleAlu2 b.size irop tb) (Agrees M start { em with stack := value.words ++ stack }) := by
  obtain ⟨st, sim, mem, calls⟩ := agrees
  rw [operands] at sim
  obtain ⟨right, tb₁, st₁, popRight, sim₁, handRight, keeps₁⟩ := pop_value b sim
  obtain ⟨left, tb₂, st₂, popLeft, sim₂, handLeft, keeps₂⟩ := pop_value a sim₁
  rw [sameSize] at popLeft
  rw [simpleAlu2, if_neg (value_size_le b), popRight]
  change Outcome (pop b.size tb₁ >>= _) _
  rw [popLeft]
  have inHand := inHand_newIr2 sim₂.runs irop b.size handLeft (handRight.keeps keeps₂) known sized
  exact push_agrees (sim₂.newer (Nat.le_succ _)) ((keeps₁.trans keeps₂).mem.trans mem)
    ((keeps₁.trans keeps₂).calls.trans calls) inHand

theorem dup_one_agrees (sim : Sim M start tb st (value.words ++ stack)) (mem : st.mem = em.mem)
    (calls : st.calls = em.calls) :
    Outcome (do
      let (v, tb) ← pop value.size tb
      let tb ← push v tb
      push v tb) (Agrees M start { em with stack := value.words ++ (value.words ++ stack) }) := by
  obtain ⟨v, tb₁, st₁, popped, sim₁, inHand, keeps₁⟩ := pop_value value sim
  rw [popped]
  refine (push_outcome sim₁ inHand).bind ?_
  intro tb₂ ⟨sim₂, keeps₂⟩
  exact push_agrees sim₂ (keeps₁.mem.trans mem) (keeps₁.calls.trans calls) (inHand.keeps keeps₂)

/-- `dup` of a word or of two. -/
theorem opDup_agrees (value : Value Word) (agrees : Agrees M start em tb)
    (operands : em.stack = value.words ++ stack) :
    Outcome (opDup value.size tb)
      (Agrees M start { em with stack := value.words ++ (value.words ++ stack) }) := by
  obtain ⟨st, sim, mem, calls⟩ := agrees
  rw [operands] at sim
  obtain ⟨st₁, sim₁, keeps₁, -⟩ := sequencePoint_sim sim
  have mem₁ := keeps₁.mem.trans mem
  have calls₁ := keeps₁.calls.trans calls
  rw [opDup]
  rw [if_neg (value_size_le value)]
  split
  next single =>
    -- two words that are not one item: they are copied one by one
    cases value with
    | word w => exact absurd single.1 (by decide : ¬ wordsize = 2 * wordsize)
    | long low high =>
      obtain ⟨v1, tb₂, st₂, pop1, sim₂, hand1, keeps₂⟩ := pop_word sim₁
      obtain ⟨v2, tb₃, st₃, pop2, sim₃, hand2, keeps₃⟩ := pop_word sim₂
      rw [pop1]
      change Outcome (pop wordsize tb₂ >>= _) _
      rw [pop2]
      have first := hand1.keeps keeps₃
      refine (push_outcome sim₃ hand2).bind ?_
      intro tb₄ ⟨sim₄, keeps₄⟩
      refine (push_outcome sim₄ (first.keeps keeps₄)).bind ?_
      intro tb₅ ⟨sim₅, keeps₅⟩
      have keeps45 := keeps₄.trans keeps₅
      refine (push_outcome sim₅ (hand2.keeps keeps45)).bind ?_
      intro tb₆ ⟨sim₆, keeps₆⟩
      exact push_agrees sim₆ ((keeps₂.trans keeps₃).mem.trans mem₁)
        ((keeps₂.trans keeps₃).calls.trans calls₁) (first.keeps (keeps45.trans keeps₆))
  next => exact dup_one_agrees sim₁ mem₁ calls₁

theorem opExg_agrees {b : Word} (agrees : Agrees M start em tb)
    (operands : em.stack = a :: b :: stack) :
    Outcome (opExg wordsize tb) (Agrees M start { em with stack := b :: a :: stack }) := by
  obtain ⟨st, sim, mem, calls⟩ := agrees
  rw [operands] at sim
  obtain ⟨v1, tb₁, st₁, pop1, sim₁, hand1, keeps₁⟩ := pop_word sim
  obtain ⟨v2, tb₂, st₂, pop2, sim₂, hand2, keeps₂⟩ := pop_word sim₁
  rw [opExg, if_neg (by decide), pop1]
  change Outcome (pop wordsize tb₁ >>= _) _
  rw [pop2]
  refine (push_outcome sim₂ (hand1.keeps keeps₂)).bind ?_
  intro tb₃ ⟨sim₃, keeps₃⟩
  exact push_agrees sim₃ ((keeps₁.trans keeps₂).mem.trans mem)
    ((keeps₁.trans keeps₂).calls.trans calls) (hand2.keeps keeps₃)

theorem inHand_localAt (runs : Runs M start tb st) (offset : Int) :
    InHand M (newIr0 (.localAt offset) pointersize tb).2 st
      (newIr0 (.localAt offset) pointersize tb).1 (.word (M.localAt offset)) :=
  inHand_newIr0 runs (.localAt offset) pointersize rfl rfl

theorem load_push_agrees (sim : Sim M start tb st stack) (mem : st.mem = em.mem)
    (calls : st.calls = em.calls) {address : Ir} (inHand : InHand M tb st address (.word a)) :
    Outcome (push (load wordsize address 0 tb).1 (load wordsize address 0 tb).2)
      (Agrees M start { em with stack := M.load em.mem a :: stack }) := by
  have loaded := inHand_newIr1 sim.runs .load wordsize inHand rfl rfl
  have pushed := push_agrees (sim.newer (Nat.le_succ _)) mem calls loaded
  rw [mem] at pushed
  exact pushed

theorem opLoi_agrees (agrees : Agrees M start em tb) (operands : em.stack = a :: stack) :
    Outcome (opLoi wordsize tb) (Agrees M start { em with stack := M.load em.mem a :: stack }) := by
  obtain ⟨st, sim, mem, calls⟩ := agrees
  rw [operands] at sim
  obtain ⟨ptr, tb₁, st₁, popped, sim₁, inHand, keeps₁⟩ := pop_word sim
  have popPtr : pop pointersize tb = .ok (ptr, tb₁) := popped
  rw [opLoi, popPtr]
  refine (load_push_agrees sim₁ (keeps₁.mem.trans mem) (keeps₁.calls.trans calls) inHand).bind ?_
  intro tb₂ after
  exact after

/-- A store of one word, with the sequence point before it. -/
theorem store_agrees (sim : Sim M start tb st stack) (mem : st.mem = em.mem)
    (calls : st.calls = em.calls) {address value : Ir}
    (handAddress : InHand M tb st address (.word a)) (handValue : InHand M tb st value (.word w)) :
    Agrees M start { em with stack := stack, mem := M.store em.mem a w }
      (appendir (store wordsize address 0 value tb).1 (store wordsize address 0 value tb).2) := by
  obtain ⟨st₁, sim₁, keeps₁, evaluated⟩ := sequencePoint_sim sim
  obtain ⟨st₂, sim₂, mem₂, calls₂⟩ := append_store sim₁ evaluated (handAddress.keeps keeps₁)
    (handValue.keeps keeps₁)
  refine ⟨st₂, sim₂, ?_, ?_⟩
  · rw [mem₂, keeps₁.mem, mem]
  · rw [calls₂, keeps₁.calls, calls]

theorem opSti_agrees (agrees : Agrees M start em tb) (operands : em.stack = a :: w :: stack)
    (fit : ∀ ptr tb', pop pointersize tb = .ok (ptr, tb') → peek tb' 0 = wordsize) :
    Outcome (opSti wordsize tb)
      (Agrees M start { em with stack := stack, mem := M.store em.mem a w }) := by
  obtain ⟨st, sim, mem, calls⟩ := agrees
  rw [operands] at sim
  obtain ⟨ptr, tb₁, st₁, popped, sim₁, handPtr, keeps₁⟩ := pop_word sim
  have popPtr : pop pointersize tb = .ok (ptr, tb₁) := popped
  have peeked := fit ptr tb₁ popPtr
  obtain ⟨value, tb₂, st₂, popValue, sim₂, handValue, keeps₂⟩ := pop_word sim₁
  have sized : value.size = wordsize := handValue.sized.symm
  have keeps := keeps₁.trans keeps₂
  have stored := store_agrees sim₂ (keeps.mem.trans mem) (keeps.calls.trans calls)
    (handPtr.keeps keeps₂) handValue
  rw [opSti, popPtr]
  change Outcome (stiLoop ptr wordsize wordsize 0
    (if wordsize > peek tb₁ 0 then appendir ptr tb₁ else tb₁)) _
  rw [peeked, if_neg (Nat.lt_irrefl _)]
  change Outcome (pop (peek tb₁ 0) tb₁ >>= _) _
  rw [peeked, popValue]
  change Outcome (stiLoop ptr 3 (wordsize - min wordsize value.size) (0 + _)
    (appendir (store (min wordsize value.size) ptr 0 value tb₂).1
      (store (min wordsize value.size) ptr 0 value tb₂).2)) _
  rw [sized]
  exact stored

theorem stl_agrees (agrees : Agrees M start em tb) (operands : em.stack = w :: stack) (offset : Int) :
    Outcome (insn (.stl offset) tb) (Agrees M start
      { em with stack := stack, mem := M.store em.mem (M.localAt offset) w }) := by
  obtain ⟨st, sim, mem, calls⟩ := agrees
  rw [operands] at sim
  obtain ⟨value, tb₁, st₁, popped, sim₁, inHand, keeps₁⟩ := pop_word sim
  rw [insn, popped]
  have keeps₂ : Keeps M tb₁ st₁ (newIr0 (.localAt offset) pointersize tb₁).2 st₁ :=
    Keeps.later st₁ (Nat.le_succ _)
  exact store_agrees (sim₁.newer (Nat.le_succ _)) (keeps₁.mem.trans mem)
    (keeps₁.calls.trans calls) (inHand_localAt sim₁.runs offset) (inHand.keeps keeps₂)

/-- Adjusting the real stack, when it holds what is adjusted. -/
theorem stackadjust_agrees {n : Int} (sim : Sim M start tb st stack) (mem : st.mem = em.mem)
    (calls : st.calls = em.calls) (adjusted : adjust M n stack = some stack')
    (held : n = 0 ∨ tb.stack = []) :
    Agrees M start { em with stack := stack' }
      (appendir (newIr1 .stackadjust pointersize (newWordir n tb).1 (newWordir n tb).2).1
        (newIr1 .stackadjust pointersize (newWordir n tb).1 (newWordir n tb).2).2) := by
  obtain ⟨words, holds, same⟩ := sim.holds
  have split : ∃ real, adjust M n st.stack = some real ∧ stack' = words ++ real := by
    rcases held with rfl | empty
    · have unchanged (list : List Word) : adjust M 0 list = some list := by
        simp [adjust]
      rw [unchanged, Option.some.injEq] at adjusted
      exact ⟨st.stack, unchanged st.stack, adjusted.symm.trans same⟩
    · rw [empty] at holds
      cases holds
      rw [List.nil_append] at same
      exact ⟨stack', same ▸ adjusted, rfl⟩
  obtain ⟨real, realAdjusted, whole⟩ := split
  have performed : perform M st (.ir1 (tb.next + 1) .stackadjust pointersize
      (.ir0 tb.next (.const n) wordsize)) = some
      { stack := real, mem := st.mem, calls := st.calls, memo := st.memo } := by
    rw [perform, realAdjusted]
  have kept : Holds M { stack := real, mem := st.mem, calls := st.calls, memo := st.memo }
      tb.stack words :=
    holds.keeps sim.below ⟨Nat.le_refl tb.next, rfl, rfl, fun _ _ => rfl⟩
  obtain ⟨st', after, mem', calls'⟩ := append_effect sim (fun _ _ _ => rfl) performed
    ⟨words, kept, whole⟩
  exact ⟨st', after, mem'.trans mem, calls'.trans calls⟩

theorem any_agrees (value : Value Word) (agrees : Agrees M start em tb)
    (known : evalOp0 M value.size .any = some value) :
    Outcome (push (newIr0 .any value.size tb).1 (newIr0 .any value.size tb).2)
      (Agrees M start { em with stack := value.words ++ em.stack }) := by
  obtain ⟨st, sim, mem, calls⟩ := agrees
  exact push_agrees (sim.newer (Nat.le_succ _)) mem calls
    (inHand_newIr0 sim.runs .any value.size known rfl)

theorem adjust_cases {value : Int} (adjusted : adjust M value stack = some stack') :
    (∃ words : Nat, value = (words * wordsize : Nat) ∧ words ≤ stack.length ∧
      stack' = stack.drop words) ∨
    (∃ words : Nat, value = -(words * wordsize : Nat) ∧ 0 < words ∧
      stack' = List.replicate words M.undefined ++ stack) := by
  unfold adjust at adjusted
  split at adjusted
  next => cases adjusted
  next multiple =>
    unfold wordsize at *
    split at adjusted
    next negative =>
      cases adjusted
      exact Or.inr ⟨(-value / 4).toNat, by omega, by omega, rfl⟩
    next =>
      split at adjusted
      next enough =>
        cases adjusted
        exact Or.inl ⟨(value / 4).toNat, by omega, enough, rfl⟩
      next => cases adjusted

theorem adjust_drop {words : Nat} (present : words ≤ stack.length) :
    adjust M (words * wordsize : Nat) stack = some (stack.drop words) := by
  have whole : ((words * wordsize : Nat) : Int) / wordsize = words := by
    unfold wordsize
    omega
  unfold adjust
  rw [whole, if_neg (by unfold wordsize; omega), if_neg (by omega), Int.toNat_natCast,
    if_pos present]

/-- `asp` agrees unless it makes room while values wait in the builder. -/
theorem opAsp_agrees {value : Int} (agrees : Agrees M start em tb)
    (adjusted : adjust M value em.stack = some stack')
    (fit : value < 0 → value ≠ -4 → value ≠ -8 → tb.stack = []) :
    Outcome (opAsp value tb) (Agrees M start { em with stack := stack' }) := by
  rw [opAsp]
  split
  next zero =>
    subst zero
    cases adjusted
    exact agrees
  next nonzero =>
    split
    next small =>
      rcases adjust_cases adjusted with ⟨words, isValue, -⟩ | ⟨words, isValue, -, pushed⟩
      · unfold wordsize at isValue
        omega
      · have oneOrTwo : words = 1 ∨ words = 2 := by
          unfold wordsize at isValue
          omega
        rw [pushed]
        rcases oneOrTwo with rfl | rfl
        · subst isValue
          exact any_agrees (.word M.undefined) agrees rfl
        · subst isValue
          exact any_agrees (.long M.undefined M.undefined) agrees rfl
    next large =>
      obtain ⟨st, sim, mem, calls⟩ := agrees
      rcases adjust_cases adjusted with ⟨words, isValue, present, dropped⟩ | ⟨words, isValue, pos, -⟩
      · obtain ⟨left, tb₁, st₁, looped, leftLe, sim₁, done, mem₁, calls₁⟩ :=
          aspLoop_sim sim words (Nat.le_mul_of_pos_right words (by decide : 0 < wordsize)) present
        rw [isValue, Int.toNat_natCast, looped]
        have rest : adjust M (left * wordsize : Nat) (em.stack.drop (words - left)) =
            some stack' := by
          rw [adjust_drop, List.drop_drop, Nat.sub_add_cancel leftLe, dropped]
          rw [List.length_drop]
          omega
        refine stackadjust_agrees sim₁ (mem₁.trans mem) (calls₁.trans calls) rest ?_
        refine done.imp ?_ id
        intro none
        rw [none]
        rfl
      · have negative : value < 0 := by
          omega
        have empty := fit negative (by omega) (by omega)
        have loop : aspLoop value.toNat value tb = .ok (value, tb) := by
          rw [Int.toNat_of_nonpos (Int.le_of_lt negative)]
          rfl
        rw [loop]
        exact stackadjust_agrees sim mem calls adjusted (Or.inr empty)

end

/-! ## Whole blocks -/

/-- An `asp` does not open space on the real stack under values that wait, and a
`sti` finds one word under its pointer. -/
def StepFit (tb : Builder) : Em → Prop
  | .asp value => value < 0 → value ≠ -4 → value ≠ -8 → tb.stack = []
  | .sti _ => ∀ ptr tb', pop pointersize tb = .ok (ptr, tb') → peek tb' 0 = wordsize
  | _ => True

def BlockFit : List Em → Builder → Prop
  | [], _ => True
  | em :: ems, tb => StepFit tb em ∧ ∀ tb', insn em tb = .ok tb' → BlockFit ems tb'

section

variable {Word Mem : Type} {M : Machine Word Mem} {start : State Word Mem}

/-- One instruction of EM and the trees built for it agree. -/
theorem insn_agrees {tb : Builder} {em em' : EmState Word Mem} {i : Em}
    (agrees : Agrees M start em tb) (fit : StepFit tb i) (stepped : emStep M em i = some em') :
    Outcome (insn i tb) (Agrees M start em') := by
  unfold emStep at stepped
  split at stepped
  case h_1 value =>
    cases stepped
    obtain ⟨st, sim, mem, calls⟩ := agrees
    exact push_agrees (sim.newer (Nat.le_succ _)) mem calls
      (inHand_newIr0 sim.runs (.const value) wordsize rfl rfl)
  case h_2 offset =>
    cases stepped
    obtain ⟨st, sim, mem, calls⟩ := agrees
    exact load_push_agrees (sim.newer (Nat.le_succ _)) mem calls (inHand_localAt sim.runs offset)
  case h_3 offset =>
    split at stepped
    next operands =>
      cases stepped
      exact stl_agrees agrees operands offset
    next => cases stepped
  case h_4 offset =>
    cases stepped
    obtain ⟨st, sim, mem, calls⟩ := agrees
    exact push_agrees (sim.newer (Nat.le_succ _)) mem calls (inHand_localAt sim.runs offset)
  case h_5 =>
    split at stepped
    next operands =>
      cases stepped
      exact opLoi_agrees agrees operands
    next => cases stepped
  case h_6 =>
    split at stepped
    next operands =>
      cases stepped
      exact opSti_agrees agrees operands fit
    next => cases stepped
  case h_7 =>
    split at stepped
    next b a stack operands =>
      cases stepped
      exact simpleAlu2_agrees .add (.word a) (.word b) (.word (M.add a b)) agrees operands rfl rfl rfl
    next => cases stepped
  case h_8 =>
    split at stepped
    next b b' a a' stack operands =>
      cases stepped
      exact simpleAlu2_agrees .add (.long a a') (.long b b')
        (.long (M.addLong (a, a') (b, b')).1 (M.addLong (a, a') (b, b')).2) agrees operands rfl rfl rfl
    next => cases stepped
  case h_9 =>
    split at stepped
    next b a stack operands =>
      cases stepped
      exact simpleAlu2_agrees .sub (.word a) (.word b) (.word (M.sub a b)) agrees operands rfl rfl rfl
    next => cases stepped
  case h_10 =>
    split at stepped
    next b b' a a' stack operands =>
      cases stepped
      exact simpleAlu2_agrees .sub (.long a a') (.long b b')
        (.long (M.subLong (a, a') (b, b')).1 (M.subLong (a, a') (b, b')).2) agrees operands rfl rfl rfl
    next => cases stepped
  case h_11 =>
    split at stepped
    next a stack operands =>
      cases stepped
      exact opDup_agrees (.word a) agrees operands
    next => cases stepped
  case h_12 =>
    split at stepped
    next a b stack operands =>
      cases stepped
      exact opDup_agrees (.long a b) agrees operands
    next => cases stepped
  case h_13 =>
    split at stepped
    next operands =>
      cases stepped
      exact opExg_agrees agrees operands
    next => cases stepped
  case h_14 value =>
    split at stepped
    next stack adjusted =>
      cases stepped
      exact opAsp_agrees agrees adjusted fit
    next => cases stepped
  case h_15 name =>
    cases stepped
    obtain ⟨st, sim, mem, calls⟩ := agrees
    obtain ⟨st', sim', mem', calls'⟩ := call_sim sim name
    refine ⟨st', ?_, ?_, ?_⟩
    · rw [← mem]
      exact sim'
    · rw [mem', mem]
    · rw [calls', calls]
  case h_16 => cases stepped

theorem insns_agree {ems : List Em} {tb : Builder} {em em' : EmState Word Mem}
    (agrees : Agrees M start em tb) (fit : BlockFit ems tb) (ran : emRun M ems em = some em') :
    Outcome (insns ems tb) (Agrees M start em') := by
  induction ems generalizing tb em with
  | nil =>
    cases ran
    exact agrees
  | cons i ems ih =>
    rw [emRun] at ran
    split at ran
    next middle stepped =>
      have step := insn_agrees agrees fit.1 stepped
      rw [insns]
      cases built : insn i tb with
      | error fatal =>
        rw [built] at step
        exact step
      | ok tb' =>
        rw [built] at step
        exact ih step (fit.2 tb' built) ran
    next => cases ran

/-- The machine before a block: nothing has been evaluated. -/
def blockStart (em : EmState Word Mem) : State Word Mem where
  stack := em.stack
  mem := em.mem
  calls := em.calls
  memo _ := none

/-- The roots of the block, executed in order, and the values that wait on the
stack of the compiler make up the state of the EM machine. -/
def Simulates (M : Machine Word Mem) (em em' : EmState Word Mem) (tb : Builder) : Prop :=
  ∃ st words, runRoots M tb.irs (blockStart em) = some st ∧ Holds M st tb.stack words ∧
    em'.stack = words ++ st.stack ∧ em'.mem = st.mem ∧ em'.calls = st.calls

/-- A block that the EM machine can run, and whose steps are fit, is simulated
by the roots that `generate_tree` appends, unless the stack of the compiler
overflows. -/
theorem generateTree_simulates {ems : List Em} {next : Nat} {em em' : EmState Word Mem}
    (ran : emRun M ems em = some em') (fit : BlockFit ems ⟨next, [], []⟩) :
    Outcome (generateTree next ems) (Simulates M em em') := by
  have runs : Runs M (blockStart em) ⟨next, [], []⟩ (blockStart em) := by
    constructor
    · rfl
    · intro node some
      cases some
    · intro ir member
      cases member
    · intro ir member
      cases member
  have initial : Agrees M (blockStart em) em ⟨next, [], []⟩ := by
    refine ⟨blockStart em, ⟨runs, ⟨[], .nil, rfl⟩, ?_, Nat.zero_le _⟩, rfl, rfl⟩
    intro ir member
    cases member
  have outcome := insns_agree initial fit ran
  unfold generateTree
  unfold Outcome at outcome ⊢
  split at outcome
  next tb =>
    obtain ⟨st, sim, mem, calls⟩ := outcome
    obtain ⟨words, holds, same⟩ := sim.holds
    exact ⟨st, words, sim.runs.run, holds, same, mem.symm, calls.symm⟩
  next => exact outcome

end

/-! ## A small machine -/

/-- Words are integers, memory is a function, and calls do nothing. -/
def smallMachine : Machine Int (Int → Int) where
  undefined := 0
  const value := value
  localAt offset := offset
  add a b := a + b
  sub a b := a - b
  addLong a b := (a.1 + b.1, a.2 + b.2)
  subLong a b := (a.1 - b.1, a.2 - b.2)
  load mem address := mem address
  store mem address w := Function.update mem address w
  call _ mem stack := (mem, stack)

def smallState : EmState Int (Int → Int) := ⟨[], fun _ => 1, []⟩

/-- A load that waits while the local is stored to. -/
theorem generateTree_simulates_load_before_store :
    ∃ em', emRun smallMachine [.asp (-12), .lol 4, .loc 5, .stl 4, .lol 4, .adi 4] smallState =
        some em' ∧ em'.stack = [6, 0, 0, 0] ∧
      Outcome (generateTree 0 [.asp (-12), .lol 4, .loc 5, .stl 4, .lol 4, .adi 4])
        (Simulates smallMachine smallState em') := by
  have ran : emRun smallMachine [.asp (-12), .lol 4, .loc 5, .stl 4, .lol 4, .adi 4] smallState =
      some _ := rfl
  refine ⟨_, ran, rfl, generateTree_simulates ran ⟨fun _ _ _ => rfl, ?_⟩⟩
  intro _ _
  exact ⟨trivial, fun _ _ => ⟨trivial, fun _ _ => ⟨trivial, fun _ _ => ⟨trivial, fun _ _ =>
    ⟨trivial, fun _ _ => trivial⟩⟩⟩⟩⟩

/-- Space that is made while a constant waits ends up below the constant. -/
theorem generateTree_asp_below_waiting_value :
    ∃ em', emRun smallMachine [.loc 1, .asp (-12)] smallState = some em' ∧
      em'.stack = [0, 0, 0, 1] ∧
      ¬ Outcome (generateTree 0 [.loc 1, .asp (-12)]) (Simulates smallMachine smallState em') := by
  refine ⟨_, rfl, rfl, ?_⟩
  intro ⟨st, words, run, holds, same, _, _⟩
  cases run
  cases holds with
  | cons known sized rest =>
    cases rest
    cases known
    exact absurd same (by decide)

end AckFormal.Mcg.TreebuilderInsns
