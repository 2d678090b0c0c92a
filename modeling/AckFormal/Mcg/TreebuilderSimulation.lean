import AckFormal.Mcg.Treebuilder

/-!
# The tree builder against the EM machine

The EM machine keeps everything on one evaluation stack.  The tree builder keeps
the top of it as trees that have not been evaluated; below it is the real stack
of the machine that executes the roots.  The two agree as long as the roots that
have been appended leave memory and the real stack so that the trees still have
the values of the EM machine.
-/

namespace AckFormal.Mcg.TreebuilderSimulation

open IrMachine Treebuilder
open Option (bind_some isSome_iff_exists none_or)

/-! ## The EM machine -/

structure EmState (Word Mem : Type) where
  stack : List Word
  mem : Mem
  calls : List (String × List Word)

variable {Word Mem : Type} (M : Machine Word Mem)

/-- The meaning of the instructions: operands of one word, `adi`, `sbi` and
`dup` also with two. -/
def emStep (st : EmState Word Mem) : Em → Option (EmState Word Mem)
  | .loc value => some { st with stack := M.const value :: st.stack }
  | .lol offset => some { st with stack := M.load st.mem (M.localAt offset) :: st.stack }
  | .stl offset =>
    match st.stack with
    | w :: stack => some { st with stack := stack, mem := M.store st.mem (M.localAt offset) w }
    | _ => none
  | .lal offset => some { st with stack := M.localAt offset :: st.stack }
  | .loi 4 =>
    match st.stack with
    | address :: stack => some { st with stack := M.load st.mem address :: stack }
    | _ => none
  | .sti 4 =>
    match st.stack with
    | address :: w :: stack => some { st with stack := stack, mem := M.store st.mem address w }
    | _ => none
  | .adi 4 =>
    match st.stack with
    | b :: a :: stack => some { st with stack := M.add a b :: stack }
    | _ => none
  | .adi 8 =>
    match st.stack with
    | b :: b' :: a :: a' :: stack =>
      some { st with
        stack := (M.addLong (a, a') (b, b')).1 :: (M.addLong (a, a') (b, b')).2 :: stack }
    | _ => none
  | .sbi 4 =>
    match st.stack with
    | b :: a :: stack => some { st with stack := M.sub a b :: stack }
    | _ => none
  | .sbi 8 =>
    match st.stack with
    | b :: b' :: a :: a' :: stack =>
      some { st with
        stack := (M.subLong (a, a') (b, b')).1 :: (M.subLong (a, a') (b, b')).2 :: stack }
    | _ => none
  | .dup 4 =>
    match st.stack with
    | a :: stack => some { st with stack := a :: a :: stack }
    | _ => none
  | .dup 8 =>
    match st.stack with
    | a :: b :: stack => some { st with stack := a :: b :: a :: b :: stack }
    | _ => none
  | .exg 4 =>
    match st.stack with
    | a :: b :: stack => some { st with stack := b :: a :: stack }
    | _ => none
  | .asp value =>
    match adjust M value st.stack with
    | some stack => some { st with stack := stack }
    | none => none
  | .cal name =>
    some
      { stack := (M.call name st.mem st.stack).2
        mem := (M.call name st.mem st.stack).1
        calls := st.calls ++ [(name, st.stack)] }
  | _ => none

def emRun : List Em → EmState Word Mem → Option (EmState Word Mem)
  | [], st => some st
  | em :: ems, st =>
    match emStep M st em with
    | some st => emRun ems st
    | none => none

/-! ## Agreement -/

/-- The roots appended so far, executed from `start`, lead to `st`. -/
structure Runs (start : State Word Mem) (tb : Builder) (st : State Word Mem) : Prop where
  run : runRoots M tb.irs start = some st
  memoBelow : ∀ node, (st.memo node).isSome → node.id < tb.next
  irsBelow : ∀ ir ∈ tb.irs, ir.id < tb.next
  evaluated : ∀ ir ∈ tb.irs, (st.memo ir).isSome ∨ Effect M ir

/-- The trees of a stack have these words as their values. -/
inductive Holds (st : State Word Mem) : List Ir → List Word → Prop where
  | nil : Holds st [] []
  | cons {ir : Ir} {value : Value Word} {rest : List Ir} {words : List Word}
      (known : eval M st.memo st.mem ir = some value) (sized : value.size = ir.size)
      (below : Holds st rest words) : Holds st (ir :: rest) (value.words ++ words)

structure InHand (tb : Builder) (st : State Word Mem) (ir : Ir) (value : Value Word) : Prop where
  known : eval M st.memo st.mem ir = some value
  sized : value.size = ir.size
  below : ir.Below tb.next

/-- The real stack with the values of the trees on top is `stack`. -/
structure Sim (start : State Word Mem) (tb : Builder) (st : State Word Mem)
    (stack : List Word) : Prop where
  runs : Runs M start tb st
  holds : ∃ words, Holds M st tb.stack words ∧ stack = words ++ st.stack
  below : ∀ ir ∈ tb.stack, ir.Below tb.next
  room : tb.stack.length ≤ 64

/-- Memory and calls are the same, and trees that exist keep their values. -/
structure Keeps (tb : Builder) (st : State Word Mem) (tb' : Builder) (st' : State Word Mem) :
    Prop where
  next : tb.next ≤ tb'.next
  mem : st'.mem = st.mem
  calls : st'.calls = st.calls
  values : ∀ ir, ir.Below tb.next → eval M st'.memo st'.mem ir = eval M st.memo st.mem ir

variable {M} {start : State Word Mem}

theorem Keeps.refl (tb : Builder) (st : State Word Mem) : Keeps M tb st tb st :=
  ⟨Nat.le_refl _, rfl, rfl, fun _ _ => rfl⟩

variable {tb tb' : Builder} {st st' : State Word Mem} {ir : Ir} {value : Value Word} {irs : List Ir}
  {words stack : List Word} {w : Word}

theorem Keeps.trans {tb'' : Builder} {st'' : State Word Mem} (first : Keeps M tb st tb' st')
    (second : Keeps M tb' st' tb'' st'') : Keeps M tb st tb'' st'' := by
  constructor
  · exact Nat.le_trans first.next second.next
  · exact second.mem.trans first.mem
  · exact second.calls.trans first.calls
  · intro ir below
    rw [second.values ir (below.mono first.next), first.values ir below]

theorem InHand.keeps (inHand : InHand M tb st ir value) (keeps : Keeps M tb st tb' st') :
    InHand M tb' st' ir value := by
  constructor
  · rw [keeps.values ir inHand.below, inHand.known]
  · exact inHand.sized
  · exact inHand.below.mono keeps.next

theorem Holds.keeps (holds : Holds M st irs words) (below : ∀ ir ∈ irs, ir.Below tb.next)
    (keeps : Keeps M tb st tb' st') : Holds M st' irs words := by
  induction holds with
  | nil => exact .nil
  | cons known sized _ ih =>
    refine .cons ?_ sized (ih fun ir member => below ir (List.mem_cons_of_mem _ member))
    rw [keeps.values _ (below _ List.mem_cons_self), known]

/-! ## Appending roots -/

theorem appendir_stack (ir : Ir) (tb : Builder) : (appendir ir tb).stack = tb.stack := by
  unfold appendir
  split
  next => rfl
  next => rfl

theorem appendir_next (ir : Ir) (tb : Builder) : (appendir ir tb).next = tb.next := by
  unfold appendir
  split
  next => rfl
  next => rfl

theorem memo_of_effect (effect : Effect M ir) (known : eval M st.memo st.mem ir = some value) :
    (st.memo ir).isSome := by
  cases here : st.memo ir with
  | some _ => rfl
  | none =>
    rw [effect st.memo st.mem here] at known
    cases known

section

variable (runs : Runs M start tb st)
include runs

/-- A tree with a value is appended and evaluated once. -/
theorem Runs.append_value (below : ir.Below tb.next)
    (known : eval M st.memo st.mem ir = some value) :
    ∃ memo, Runs M start (appendir ir tb) { st with memo := memo } ∧ memo ir = some value ∧
      (∀ node, (st.memo node).isSome → (memo node).isSome) ∧
      ∀ node, eval M memo st.mem node = eval M st.memo st.mem node := by
  unfold appendir
  split
  next member =>
    refine ⟨st.memo, runs, ?_, fun _ some => some, fun _ => rfl⟩
    have evaluated : (st.memo ir).isSome := by
      cases runs.evaluated ir member with
      | inl some => exact some
      | inr effect => exact memo_of_effect effect known
    obtain ⟨other, here⟩ := isSome_iff_exists.mp evaluated
    rw [eval_of_memo M here] at known
    rw [here, known]
  next =>
    obtain ⟨memo, executed, self, values, nodes, kept⟩ := execRoot_of_value M known
    refine ⟨memo, ⟨?_, ?_, ?_, ?_⟩, self, kept, values⟩
    · rw [runRoots_append, runs.run]
      exact executed
    · intro node some
      cases nodes node some with
      | inl before => exact runs.memoBelow node before
      | inr member => exact below node member
    · intro root member
      cases List.mem_append.mp member with
      | inl old => exact runs.irsBelow root old
      | inr isNew =>
        rw [List.mem_singleton.mp isNew]
        exact below.id_lt
    · intro root member
      cases List.mem_append.mp member with
      | inl old => exact (runs.evaluated root old).imp (kept root) id
      | inr isNew =>
        rw [List.mem_singleton.mp isNew]
        exact Or.inl (isSome_iff_exists.mpr ⟨value, self⟩)

theorem Runs.memo_fresh (fresh : tb.next ≤ ir.id) :
    st.memo ir = none := by
  cases here : st.memo ir with
  | none => rfl
  | some value =>
    have before := runs.memoBelow ir (isSome_iff_exists.mpr ⟨value, here⟩)
    exact absurd before (Nat.not_lt_of_le fresh)

theorem Runs.newer (irs : tb'.irs = tb.irs) (next : tb.next ≤ tb'.next) :
    Runs M start tb' st := by
  constructor
  · rw [irs]
    exact runs.run
  · intro node some
    exact Nat.lt_of_lt_of_le (runs.memoBelow node some) next
  · rw [irs]
    intro ir member
    exact Nat.lt_of_lt_of_le (runs.irsBelow ir member) next
  · rw [irs]
    exact runs.evaluated

/-- Appending a root that has just been made executes it. -/
theorem Runs.append_fresh (tb' : Builder) {root : Ir}
    (fresh : tb.next ≤ root.id) (made : root.id < tb'.next) (irs : tb'.irs = tb.irs)
    (performed : perform M st root = some st')
    (grown : ∀ node, (st'.memo node).isSome → (st.memo node).isSome ∨ node.id < tb'.next)
    (kept : ∀ node, (st.memo node).isSome → (st'.memo node).isSome)
    (evaluated : (st'.memo root).isSome ∨ Effect M root) :
    Runs M start (appendir root tb') st' := by
  have next : tb.next ≤ tb'.next := Nat.le_trans fresh (Nat.le_of_lt made)
  have isNew : root ∉ tb'.irs := by
    rw [irs]
    intro member
    exact Nat.not_lt_of_le fresh (runs.irsBelow root member)
  unfold appendir
  rw [if_neg isNew]
  constructor
  · rw [irs, runRoots_append, runs.run, bind_some, execRoot, runs.memo_fresh fresh]
    exact performed
  · intro node some
    cases grown node some with
    | inl before => exact Nat.lt_of_lt_of_le (runs.memoBelow node before) next
    | inr below => exact below
  · rw [irs]
    intro ir member
    cases List.mem_append.mp member with
    | inl old => exact Nat.lt_of_lt_of_le (runs.irsBelow ir old) next
    | inr here =>
      rw [List.mem_singleton.mp here]
      exact made
  · rw [irs]
    intro ir member
    cases List.mem_append.mp member with
    | inl old => exact (runs.evaluated ir old).imp (kept ir) id
    | inr here =>
      rw [List.mem_singleton.mp here]
      exact evaluated

end

/-! ## Trees in hand -/

theorem Sim.newer (sim : Sim M start tb st stack) {next : Nat} (later : tb.next ≤ next) :
    Sim M start { tb with next := next } st stack := by
  constructor
  · exact sim.runs.newer rfl later
  · exact sim.holds
  · intro ir member
    exact (sim.below ir member).mono later
  · exact sim.room

theorem Keeps.later (st : State Word Mem) (later : tb.next ≤ tb'.next) : Keeps M tb st tb' st :=
  ⟨later, rfl, rfl, fun _ _ => rfl⟩

theorem inHand_newIr0 (runs : Runs M start tb st) (opcode : Op0) (size : Nat)
    (known : evalOp0 M size opcode = some value) (sized : value.size = size) :
    InHand M (newIr0 opcode size tb).2 st (newIr0 opcode size tb).1 value := by
  constructor
  · rw [newIr0, eval, runs.memo_fresh (Nat.le_refl _), none_or, known]
  · exact sized
  · exact Ir.below_ir0 opcode size

theorem inHand_newIr1 (runs : Runs M start tb st) (opcode : Op1) (size : Nat) {left : Ir}
    {a : Value Word} (inHand : InHand M tb st left a)
    (known : evalOp1 M st.mem size opcode a = some value) (sized : value.size = size) :
    InHand M (newIr1 opcode size left tb).2 st (newIr1 opcode size left tb).1 value := by
  constructor
  · rw [newIr1, eval, runs.memo_fresh (Nat.le_refl _), none_or, inHand.known,
      bind_some, known]
  · exact sized
  · exact Ir.below_ir1 opcode size inHand.below

theorem inHand_newIr2 (runs : Runs M start tb st) (opcode : Op2) (size : Nat) {left right : Ir}
    {a b : Value Word} (handLeft : InHand M tb st left a) (handRight : InHand M tb st right b)
    (known : evalOp2 M size opcode a b = some value) (sized : value.size = size) :
    InHand M (newIr2 opcode size left right tb).2 st (newIr2 opcode size left right tb).1 value := by
  constructor
  · rw [newIr2, eval, runs.memo_fresh (Nat.le_refl _), none_or, handLeft.known,
      bind_some, handRight.known, bind_some, known]
  · exact sized
  · exact Ir.below_ir2 opcode size handLeft.below handRight.below

theorem Sim.append_value (sim : Sim M start tb st stack) (inHand : InHand M tb st ir value) :
    ∃ st', Sim M start (appendir ir tb) st' stack ∧ Keeps M tb st (appendir ir tb) st' ∧
      (st'.memo ir).isSome ∧ ∀ node, (st.memo node).isSome → (st'.memo node).isSome := by
  obtain ⟨memo, runs, self, kept, values⟩ := sim.runs.append_value inHand.below inHand.known
  have keeps : Keeps M tb st (appendir ir tb) { st with memo := memo } := by
    exact ⟨Nat.le_of_eq (appendir_next ir tb).symm, rfl, rfl, fun node _ => values node⟩
  refine ⟨{ st with memo := memo }, ⟨runs, ?_, ?_, ?_⟩, keeps,
    isSome_iff_exists.mpr ⟨value, self⟩, kept⟩
  · obtain ⟨words, holds, same⟩ := sim.holds
    rw [appendir_stack]
    exact ⟨words, holds.keeps sim.below keeps, same⟩
  · rw [appendir_stack, appendir_next]
    exact sim.below
  · rw [appendir_stack]
    exact sim.room

/-- The builder runs on, or stops because its stack is full. -/
def Outcome (result : Except Fatal Builder) (post : Builder → Prop) : Prop :=
  match result with
  | .ok tb => post tb
  | .error fatal => fatal = .stackOverflow

theorem Outcome.bind {result : Except Fatal Builder} {body : Builder → Except Fatal Builder}
    {middle post : Builder → Prop} (first : Outcome result middle)
    (rest : ∀ tb, middle tb → Outcome (body tb) post) : Outcome (result >>= body) post := by
  cases result with
  | ok tb => exact rest tb first
  | error fatal => exact first

theorem Sim.push (sim : Sim M start tb st stack) (inHand : InHand M tb st ir value)
    (room : tb.stack.length < 64) :
    Sim M start { tb with stack := ir :: tb.stack } st (value.words ++ stack) := by
  obtain ⟨words, holds, same⟩ := sim.holds
  refine ⟨sim.runs.newer rfl (Nat.le_refl _), ?_, ?_, room⟩
  · refine ⟨value.words ++ words, .cons inHand.known inHand.sized holds, ?_⟩
    rw [same, List.append_assoc]
  · intro other member
    cases member with
    | head => exact inHand.below
    | tail _ member => exact sim.below other member

theorem push_outcome (sim : Sim M start tb st stack) (inHand : InHand M tb st ir value) :
    Outcome (Treebuilder.push ir tb) fun tb' =>
      Sim M start tb' st (value.words ++ stack) ∧ Keeps M tb st tb' st := by
  unfold Treebuilder.push
  split
  next => rfl
  next notFull =>
    exact ⟨sim.push inHand (Nat.lt_of_le_of_ne sim.room notFull), Keeps.later st (Nat.le_refl _)⟩

/-! ## Popping -/

theorem effect_pop (id size : Nat) : Effect M (.ir0 id .pop size) := by
  intro memo mem fresh
  rw [eval, fresh]
  rfl

/-- With nothing on the builder's stack a value is popped from the machine's. -/
theorem pop_real (sim : Sim M start tb st stack) (empty : tb.stack = []) (value : Value Word)
    {size : Nat} (sized : value.size = size) {rest : List Word} (top : stack = value.words ++ rest) :
    ∃ st', Sim M start (appendir (newIr0 .pop size tb).1 (newIr0 .pop size tb).2) st' rest ∧
      InHand M (appendir (newIr0 .pop size tb).1 (newIr0 .pop size tb).2) st'
        (newIr0 .pop size tb).1 value ∧
      Keeps M tb st (appendir (newIr0 .pop size tb).1 (newIr0 .pop size tb).2) st' := by
  obtain ⟨words, holds, same⟩ := sim.holds
  rw [empty] at holds
  cases holds
  rw [List.nil_append] at same
  have node : (newIr0 .pop size tb).1 = .ir0 tb.next .pop size := rfl
  have later : (newIr0 .pop size tb).2 = { tb with next := tb.next + 1 } := rfl
  rw [node, later]
  have performed : perform M st (.ir0 tb.next .pop size) = some { st with
      stack := rest
      memo := Function.update st.memo (.ir0 tb.next .pop size) (some value) } := by
    rw [perform, ← same, top, ← sized]
    cases value with
    | word w => rfl
    | long low high => rfl
  have self : Function.update st.memo (.ir0 tb.next .pop size) (some value)
      (.ir0 tb.next .pop size) = some value := Function.update_self _ _ _
  have others (ir : Ir) (differs : ir ≠ .ir0 tb.next .pop size) :
      Function.update st.memo (.ir0 tb.next .pop size) (some value) ir = st.memo ir :=
    Function.update_of_ne differs _ _
  refine ⟨_, ⟨sim.runs.append_fresh _ (Nat.le_refl _) (Nat.lt_succ_self _) rfl performed ?_ ?_
    (Or.inr (effect_pop _ _)), ?_, ?_, ?_⟩, ⟨?_, sized, ?_⟩, ⟨?_, rfl, rfl, ?_⟩⟩
  · intro ir some
    rcases eq_or_ne ir (.ir0 tb.next .pop size) with rfl | differs
    · exact Or.inr (Nat.lt_succ_self _)
    · dsimp only at some
      rw [others ir differs] at some
      exact Or.inl some
  · intro ir some
    rcases eq_or_ne ir (.ir0 tb.next .pop size) with rfl | differs
    · exact isSome_iff_exists.mpr ⟨value, self⟩
    · dsimp only
      rw [others ir differs]
      exact some
  · rw [appendir_stack, empty]
    exact ⟨[], .nil, rfl⟩
  · rw [appendir_stack, empty]
    intro ir member
    cases member
  · rw [appendir_stack]
    exact sim.room
  · exact eval_of_memo M self _
  · rw [appendir_next]
    exact Ir.below_ir0 _ _
  · rw [appendir_next]
    exact Nat.le_succ _
  · intro ir below
    refine eval_congr M st.mem fun node member => others node ?_
    intro isPop
    have before := below node member
    rw [isPop] at before
    exact Nat.lt_irrefl _ before

theorem Sim.uncons (sim : Sim M start tb st stack) {rest : List Ir} (isTop : tb.stack = ir :: rest) :
    ∃ value below, stack = value.words ++ below ∧
      Sim M start { tb with stack := rest } st below ∧ InHand M tb st ir value := by
  obtain ⟨words, holds, same⟩ := sim.holds
  have belowAll := sim.below
  have room := sim.room
  rw [isTop] at holds belowAll room
  cases holds with
  | cons known sized holds =>
    rename_i value words
    refine ⟨value, words ++ st.stack, ?_, ⟨?_, ⟨words, holds, rfl⟩, ?_, ?_⟩,
      ⟨known, sized, belowAll ir List.mem_cons_self⟩⟩
    · rw [same, List.append_assoc]
    · exact sim.runs.newer rfl (Nat.le_refl _)
    · intro other member
      exact belowAll other (List.mem_cons_of_mem ir member)
    · exact Nat.le_of_succ_le room

/-! The branches of `pop`. -/

section

variable (inner : Builder → Except Fatal (Ir × Builder)) {tb : Builder} {ir : Ir} {rest : List Ir}

theorem popWith_nil (size : Nat) (empty : tb.stack = []) :
    popWith inner size tb = .ok ((newIr0 .pop size tb).1,
      appendir (newIr0 .pop size tb).1 (newIr0 .pop size tb).2) := by
  rw [popWith, empty]

theorem popWith_same {size : Nat} (isTop : tb.stack = ir :: rest) (same : ir.size = size) :
    popWith inner size tb = .ok (ir, { tb with stack := rest }) := by
  rw [popWith, isTop]
  exact if_pos same

theorem popWith_split (isTop : tb.stack = ir :: rest) (long : ir.size = 2 * wordsize)
    (room : tb.stack.length ≤ 64) {tb₁ : Builder} (made : appendir ir { tb with stack := rest } = tb₁) :
    popWith inner wordsize tb = .ok (newIr1 .froml0 wordsize ir
      { (newIr1 .froml1 wordsize ir tb₁).2 with
        stack := (newIr1 .froml1 wordsize ir tb₁).1 :: tb₁.stack }) := by
  have notFull : tb₁.stack.length ≠ 64 := by
    rw [← made, appendir_stack]
    rw [isTop] at room
    exact Nat.ne_of_lt room
  rw [popWith, isTop]
  simp only [long, made]
  have pushed : push (newIr1 .froml1 wordsize ir tb₁).1 (newIr1 .froml1 wordsize ir tb₁).2 =
      .ok { (newIr1 .froml1 wordsize ir tb₁).2 with
        stack := (newIr1 .froml1 wordsize ir tb₁).1 :: tb₁.stack } := if_neg notFull
  rw [pushed]
  rfl

theorem popWith_pair (isTop : tb.stack = ir :: rest) (short : ir.size = wordsize) {other : Ir}
    {tb' : Builder} (popped : inner { tb with stack := rest } = .ok (other, tb')) :
    popWith inner (2 * wordsize) tb = .ok (newIr2 .fromipair (2 * wordsize) ir other tb') := by
  rw [popWith, isTop]
  simp only [short, popped]
  rfl

end

/-- A word is popped, from the builder's stack or from the machine's. -/
theorem popWith_word (inner : Builder → Except Fatal (Ir × Builder))
    (sim : Sim M start tb st (w :: stack)) :
    ∃ ir tb' st', popWith inner wordsize tb = .ok (ir, tb') ∧ Sim M start tb' st' stack ∧
      InHand M tb' st' ir (.word w) ∧ Keeps M tb st tb' st' := by
  cases isTop : tb.stack with
  | nil =>
    obtain ⟨st', after, inHand, keeps⟩ := pop_real sim isTop (.word w) rfl rfl
    exact ⟨_, _, st', popWith_nil inner wordsize isTop, after, inHand, keeps⟩
  | cons ir rest =>
    obtain ⟨value, below, same, under, inHand⟩ := sim.uncons isTop
    have restacked : Keeps M tb st { tb with stack := rest } st := Keeps.later st (Nat.le_refl _)
    cases value with
    | word top =>
      cases same
      exact ⟨ir, { tb with stack := rest }, st, popWith_same inner isTop inHand.sized.symm,
        under, inHand.keeps restacked, restacked⟩
    | long low high =>
      -- the high word goes back onto the stack
      cases same
      obtain ⟨st', appended, keeps, -⟩ := under.append_value (inHand.keeps restacked)
      have whole := (inHand.keeps restacked).keeps keeps
      generalize made : appendir ir { tb with stack := rest } = tb₁ at appended keeps whole
      have highHand := inHand_newIr1 appended.runs .froml1 wordsize whole rfl rfl
      have room : tb₁.stack.length < 64 := by
        have full := sim.room
        rw [isTop] at full
        rw [← made, appendir_stack]
        exact full
      have pushed := (appended.newer (Nat.le_succ _)).push highHand room
      have lowHand := inHand_newIr1 pushed.runs .froml0 wordsize
        (whole.keeps (Keeps.later st' (Nat.le_succ _))) rfl rfl
      refine ⟨_, _, st', popWith_split inner isTop inHand.sized.symm sim.room made,
        pushed.newer (Nat.le_succ _), lowHand, ?_⟩
      refine (restacked.trans keeps).trans (Keeps.later st' ?_)
      exact Nat.le_trans (Nat.le_succ _) (Nat.le_succ _)

theorem popWith_long (inner : Builder → Except Fatal (Ir × Builder)) {low high : Word}
    (sim : Sim M start tb st (low :: high :: stack)) :
    ∃ ir tb' st', popWith (popWith inner wordsize) (2 * wordsize) tb = .ok (ir, tb') ∧
      Sim M start tb' st' stack ∧ InHand M tb' st' ir (.long low high) ∧ Keeps M tb st tb' st' := by
  cases isTop : tb.stack with
  | nil =>
    obtain ⟨st', after, inHand, keeps⟩ := pop_real sim isTop (.long low high) rfl rfl
    exact ⟨_, _, st', popWith_nil _ (2 * wordsize) isTop, after, inHand, keeps⟩
  | cons ir rest =>
    obtain ⟨value, below, same, under, inHand⟩ := sim.uncons isTop
    have restacked : Keeps M tb st { tb with stack := rest } st := Keeps.later st (Nat.le_refl _)
    cases value with
    | long topLow topHigh =>
      cases same
      exact ⟨ir, { tb with stack := rest }, st, popWith_same _ isTop inHand.sized.symm,
        under, inHand.keeps restacked, restacked⟩
    | word top =>
      cases same
      obtain ⟨other, tb₁, st', popped, after, otherHand, keeps⟩ := popWith_word inner under
      have first := (inHand.keeps restacked).keeps keeps
      have pair := inHand_newIr2 after.runs .fromipair (2 * wordsize)
        first otherHand rfl rfl
      exact ⟨_, _, st', popWith_pair _ isTop inHand.sized.symm popped,
        after.newer (Nat.le_succ _), pair,
        (restacked.trans keeps).trans (Keeps.later st' (Nat.le_succ _))⟩

theorem pop_value (value : Value Word) (sim : Sim M start tb st (value.words ++ stack)) :
    ∃ ir tb' st', pop value.size tb = .ok (ir, tb') ∧ Sim M start tb' st' stack ∧
      InHand M tb' st' ir value ∧ Keeps M tb st tb' st' := by
  cases value with
  | word w => exact popWith_word _ sim
  | long low high => exact popWith_long _ sim

theorem pop_word (sim : Sim M start tb st (w :: stack)) :
    ∃ ir tb' st', pop wordsize tb = .ok (ir, tb') ∧ Sim M start tb' st' stack ∧
      InHand M tb' st' ir (.word w) ∧ Keeps M tb st tb' st' :=
  pop_value (.word w) sim

/-! ## Sequence points and stores -/

theorem Holds.inHand (holds : Holds M st irs words) (member : ir ∈ irs) :
    ∃ value, eval M st.memo st.mem ir = some value ∧ value.size = ir.size := by
  induction holds with
  | nil => cases member
  | cons known sized _ ih =>
    cases member with
    | head => exact ⟨_, known, sized⟩
    | tail _ member => exact ih member

section

variable (sim : Sim M start tb st stack)
include sim

theorem Sim.inHand (member : ir ∈ tb.stack) :
    ∃ value, InHand M tb st ir value := by
  obtain ⟨words, holds, -⟩ := sim.holds
  obtain ⟨value, known, sized⟩ := holds.inHand member
  exact ⟨value, known, sized, sim.below ir member⟩

theorem foldr_appendir (sub : ∀ ir ∈ irs, ir ∈ tb.stack) :
    ∃ st', Sim M start (irs.foldr appendir tb) st' stack ∧
      Keeps M tb st (irs.foldr appendir tb) st' ∧ (irs.foldr appendir tb).stack = tb.stack ∧
      ∀ ir ∈ irs, (st'.memo ir).isSome := by
  induction irs with
  | nil => exact ⟨st, sim, Keeps.refl tb st, rfl, fun ir member => by cases member⟩
  | cons ir irs ih =>
    obtain ⟨st₁, sim₁, keeps₁, same, evaluated⟩ :=
      ih fun other member => sub other (List.mem_cons_of_mem ir member)
    have onStack : ir ∈ (irs.foldr appendir tb).stack := by
      rw [same]
      exact sub ir List.mem_cons_self
    obtain ⟨value, inHand⟩ := sim₁.inHand onStack
    obtain ⟨st₂, sim₂, keeps₂, self, kept⟩ := sim₁.append_value inHand
    refine ⟨st₂, sim₂, keeps₁.trans keeps₂, ?_, ?_⟩
    · rw [List.foldr_cons, appendir_stack, same]
    · intro other member
      cases member with
      | head => exact self
      | tail _ member => exact kept other (evaluated other member)

/-- After a sequence point every tree on the stack has been evaluated. -/
theorem sequencePoint_sim :
    ∃ st', Sim M start (sequencePoint tb) st' stack ∧ Keeps M tb st (sequencePoint tb) st' ∧
      ∀ ir ∈ (sequencePoint tb).stack, (st'.memo ir).isSome := by
  obtain ⟨st', after, keeps, same, evaluated⟩ := foldr_appendir sim fun _ member => member
  refine ⟨st', after, keeps, ?_⟩
  intro ir member
  rw [sequencePoint, same] at member
  exact evaluated ir member

end

/-- Evaluated trees keep their values whatever happens to the memory. -/
theorem Holds.of_memo (holds : Holds M st irs words) (evaluated : ∀ ir ∈ irs, (st.memo ir).isSome)
    (kept : ∀ node value, st.memo node = some value → st'.memo node = some value) :
    Holds M st' irs words := by
  induction holds with
  | nil => exact .nil
  | @cons ir value rest words known sized _ ih =>
    refine .cons ?_ sized (ih fun other member => evaluated other (List.mem_cons_of_mem _ member))
    obtain ⟨found, here⟩ := isSome_iff_exists.mp (evaluated ir List.mem_cons_self)
    rw [eval_of_memo M here] at known
    cases known
    exact eval_of_memo M (kept ir _ here) st'.mem

theorem effect_store (id size : Nat) (left right : Ir) : Effect M (.ir2 id .store size left right) := by
  intro memo mem fresh
  rw [eval, fresh, none_or]
  cases eval M memo mem left with
  | none => rfl
  | some a =>
    cases eval M memo mem right with
    | none => rfl
    | some b => rfl

/-- A store of one word, when everything on the stack has been evaluated. -/
theorem append_store (sim : Sim M start tb st stack)
    (evaluated : ∀ ir ∈ tb.stack, (st.memo ir).isSome) {address value : Ir} {a : Word}
    (handAddress : InHand M tb st address (.word a)) (handValue : InHand M tb st value (.word w)) :
    ∃ st', Sim M start (appendir (newIr2 .store wordsize address value tb).1
        (newIr2 .store wordsize address value tb).2) st' stack ∧
      st'.mem = M.store st.mem a w ∧ st'.calls = st.calls := by
  let memo := remember M (remember M st.memo st.mem address) st.mem value
  have performed : perform M st (newIr2 .store wordsize address value tb).1 =
      some { st with mem := M.store st.mem a w, memo := memo } := by
    simp only [newIr2, perform, handAddress.known, handValue.known]
    rfl
  have keptValue : ∀ node found, st.memo node = some found → memo node = some found := by
    intro node found here
    exact remember_of_some M (remember_of_some M here)
  have kept : ∀ node, (st.memo node).isSome → (memo node).isSome := by
    intro node some
    exact remember_isSome M (remember_isSome M some)
  have grown : ∀ node, (memo node).isSome → (st.memo node).isSome ∨ node.id < tb.next + 1 := by
    intro node some
    cases remember_cases M some with
    | inr inValue => exact Or.inr (Nat.lt_succ_of_lt (handValue.below node inValue))
    | inl some =>
      cases remember_cases M some with
      | inr inAddress => exact Or.inr (Nat.lt_succ_of_lt (handAddress.below node inAddress))
      | inl before => exact Or.inl before
  have runs := sim.runs.append_fresh (newIr2 .store wordsize address value tb).2
    (Nat.le_refl _) (Nat.lt_succ_self _) rfl performed grown kept (Or.inr (effect_store _ _ _ _))
  refine ⟨_, ⟨runs, ?_, ?_, ?_⟩, rfl, rfl⟩
  · obtain ⟨words, holds, same⟩ := sim.holds
    rw [appendir_stack]
    exact ⟨words, holds.of_memo evaluated keptValue, same⟩
  · rw [appendir_stack, appendir_next]
    intro ir member
    exact (sim.below ir member).mono (Nat.le_succ _)
  · rw [appendir_stack]
    exact sim.room

end AckFormal.Mcg.TreebuilderSimulation
