import Mathlib.Data.List.Basic

/-!
# Intermediate representation and its execution

An `struct ir` is a node with an identity; a node may have several parents, and
it is evaluated once, when the first root that needs it is executed.  Values are
one or two words wide.  What words, memory and procedure calls are is left to a
`Machine`.
-/

namespace AckFormal.Mcg.IrMachine

def wordsize : Nat := 4

def pointersize : Nat := 4

/-- Opcodes of nodes without children, with the constant in the node. -/
inductive Op0 where
  | const (value : Int)
  | label (name : String)
  | localAt (offset : Int)
  | any
  | pop
deriving DecidableEq

inductive Op1 where
  | push | load | loadb | loadh | froml0 | froml1 | call | stackadjust
deriving DecidableEq

inductive Op2 where
  | store | storeb | storeh | add | sub | fromipair
deriving DecidableEq

/-- `struct ir`.  Nodes are equal if they are the same node: `id` is different
for every node that is made. -/
inductive Ir where
  | ir0 (id : Nat) (opcode : Op0) (size : Nat)
  | ir1 (id : Nat) (opcode : Op1) (size : Nat) (left : Ir)
  | ir2 (id : Nat) (opcode : Op2) (size : Nat) (left right : Ir)
deriving DecidableEq

namespace Ir

def id : Ir → Nat
  | ir0 id _ _ => id
  | ir1 id _ _ _ => id
  | ir2 id _ _ _ _ => id

def size : Ir → Nat
  | ir0 _ _ size => size
  | ir1 _ _ size _ => size
  | ir2 _ _ size _ _ => size

def nodes : Ir → List Ir
  | ir0 id opcode size => [ir0 id opcode size]
  | ir1 id opcode size left => ir1 id opcode size left :: left.nodes
  | ir2 id opcode size left right =>
    ir2 id opcode size left right :: (left.nodes ++ right.nodes)

def Below (next : Nat) (ir : Ir) : Prop := ∀ node ∈ ir.nodes, node.id < next

theorem mem_nodes_self (ir : Ir) : ir ∈ ir.nodes := by
  cases ir <;> exact List.mem_cons_self

variable {next : Nat}

theorem Below.id_lt {ir : Ir} (below : ir.Below next) : ir.id < next :=
  below ir ir.mem_nodes_self

theorem Below.mono {later : Nat} {ir : Ir} (below : ir.Below next) (le : next ≤ later) :
    ir.Below later := by
  intro node member
  exact Nat.lt_of_lt_of_le (below node member) le

theorem below_ir0 (opcode : Op0) (size : Nat) : (ir0 next opcode size).Below (next + 1) := by
  intro node member
  rw [List.mem_singleton.mp member]
  exact Nat.lt_succ_self next

theorem below_ir1 (opcode : Op1) (size : Nat) {left : Ir} (below : left.Below next) :
    (ir1 next opcode size left).Below (next + 1) := by
  intro node member
  cases List.mem_cons.mp member with
  | inl here =>
    rw [here]
    exact Nat.lt_succ_self next
  | inr inLeft => exact Nat.lt_succ_of_lt (below node inLeft)

theorem below_ir2 (opcode : Op2) (size : Nat) {left right : Ir} (belowLeft : left.Below next)
    (belowRight : right.Below next) : (ir2 next opcode size left right).Below (next + 1) := by
  intro node member
  cases List.mem_cons.mp member with
  | inl here =>
    rw [here]
    exact Nat.lt_succ_self next
  | inr inChildren =>
    cases List.mem_append.mp inChildren with
    | inl inLeft => exact Nat.lt_succ_of_lt (belowLeft node inLeft)
    | inr inRight => exact Nat.lt_succ_of_lt (belowRight node inRight)

end Ir

/-- A value of one word, or of two with the low one on top of the stack. -/
inductive Value (Word : Type) where
  | word (w : Word)
  | long (low high : Word)

namespace Value

variable {Word : Type}

def size : Value Word → Nat
  | word _ => wordsize
  | long _ _ => 2 * wordsize

def words : Value Word → List Word
  | word w => [w]
  | long low high => [low, high]

end Value

/-- What the code generator does not decide: arithmetic, memory, and what a
procedure does to the memory and to the stack. -/
structure Machine (Word Mem : Type) where
  undefined : Word
  const : Int → Word
  localAt : Int → Word
  add : Word → Word → Word
  sub : Word → Word → Word
  addLong : Word × Word → Word × Word → Word × Word
  subLong : Word × Word → Word × Word → Word × Word
  load : Mem → Word → Word
  store : Mem → Word → Word → Mem
  call : String → Mem → List Word → Mem × List Word

/-- A machine with a real stack while it executes roots.  `memo` holds the
values of the nodes that have been evaluated. -/
structure State (Word Mem : Type) where
  stack : List Word
  mem : Mem
  calls : List (String × List Word)
  memo : Ir → Option (Value Word)

variable {Word Mem : Type} (M : Machine Word Mem)

def evalOp0 (size : Nat) : Op0 → Option (Value Word)
  | .const value => if size = wordsize then some (.word (M.const value)) else none
  | .localAt offset => some (.word (M.localAt offset))
  | .any =>
    if size = wordsize then some (.word M.undefined)
    else if size = 2 * wordsize then some (.long M.undefined M.undefined)
    else none
  | _ => none

def evalOp1 (mem : Mem) (size : Nat) : Op1 → Value Word → Option (Value Word)
  | .load, .word address =>
    if size = wordsize then some (.word (M.load mem address)) else none
  | .froml0, .long low _ => some (.word low)
  | .froml1, .long _ high => some (.word high)
  | _, _ => none

def evalOp2 (size : Nat) : Op2 → Value Word → Value Word → Option (Value Word)
  | .add, .word a, .word b =>
    if size = wordsize then some (.word (M.add a b)) else none
  | .sub, .word a, .word b =>
    if size = wordsize then some (.word (M.sub a b)) else none
  | .add, .long a a', .long b b' =>
    if size = 2 * wordsize then
      some (.long (M.addLong (a, a') (b, b')).1 (M.addLong (a, a') (b, b')).2)
    else none
  | .sub, .long a a', .long b b' =>
    if size = 2 * wordsize then
      some (.long (M.subLong (a, a') (b, b')).1 (M.subLong (a, a') (b, b')).2)
    else none
  | .fromipair, .word a, .word b => some (.long a b)
  | _, _, _ => none

/-- The value of a node.  A pop has one only after it has been executed, and
the nodes that are executed for their effect have none. -/
def eval (memo : Ir → Option (Value Word)) (mem : Mem) : Ir → Option (Value Word)
  | .ir0 id opcode size => (memo (.ir0 id opcode size)).or (evalOp0 M size opcode)
  | .ir1 id opcode size left =>
    (memo (.ir1 id opcode size left)).or ((eval memo mem left).bind (evalOp1 M mem size opcode))
  | .ir2 id opcode size left right =>
    (memo (.ir2 id opcode size left right)).or
      ((eval memo mem left).bind fun a => (eval memo mem right).bind (evalOp2 M size opcode a))

def remember (memo : Ir → Option (Value Word)) (mem : Mem) (tree : Ir) :
    Ir → Option (Value Word) :=
  fun node => (memo node).or (if node ∈ tree.nodes then eval M memo mem node else none)

/-- A change of the stack pointer by `n` bytes, as `IR_STACKADJUST` and `asp`
make it. -/
def adjust (n : Int) (stack : List Word) : Option (List Word) :=
  if n % wordsize ≠ 0 then none
  else if n < 0 then some (List.replicate (-n / wordsize).toNat M.undefined ++ stack)
  else if (n / wordsize).toNat ≤ stack.length then some (stack.drop (n / wordsize).toNat)
  else none

def perform (st : State Word Mem) : Ir → Option (State Word Mem)
  | .ir0 id .pop size =>
    match st.stack with
    | low :: stack =>
      if size = wordsize then
        some { st with
          stack := stack
          memo := Function.update st.memo (.ir0 id .pop size) (some (.word low)) }
      else
        match stack with
        | high :: stack =>
          if size = 2 * wordsize then
            some { st with
              stack := stack
              memo := Function.update st.memo (.ir0 id .pop size) (some (.long low high)) }
          else none
        | [] => none
    | [] => none
  | .ir1 _ .push _ left =>
    match eval M st.memo st.mem left with
    | some value => some
        { st with
          stack := value.words ++ st.stack
          memo := remember M st.memo st.mem left }
    | none => none
  | .ir1 _ .call _ (.ir0 _ (.label name) _) =>
    some { st with
      stack := (M.call name st.mem st.stack).2
      mem := (M.call name st.mem st.stack).1
      calls := st.calls ++ [(name, st.stack)] }
  | .ir1 _ .stackadjust _ (.ir0 _ (.const n) _) =>
    match adjust M n st.stack with
    | some stack => some { st with stack := stack }
    | none => none
  | .ir2 _ .store size left right =>
    match eval M st.memo st.mem left, eval M st.memo st.mem right with
    | some (.word address), some value =>
      -- a store of one word takes the low one of two
      match value.words with
      | low :: _ =>
        if size = wordsize then
          some { st with
            mem := M.store st.mem address low
            memo := remember M (remember M st.memo st.mem left) st.mem right }
        else none
      | [] => none
    | _, _ => none
  | root =>
    match eval M st.memo st.mem root with
    | some _ => some { st with memo := remember M st.memo st.mem root }
    | none => none

def execRoot (st : State Word Mem) (root : Ir) : Option (State Word Mem) :=
  if (st.memo root).isSome then some st else perform M st root

def runRoots : List Ir → State Word Mem → Option (State Word Mem)
  | [], st => some st
  | root :: roots, st =>
    match execRoot M st root with
    | some st => runRoots roots st
    | none => none

theorem runRoots_append (roots : List Ir) (root : Ir) (st : State Word Mem) :
    runRoots M (roots ++ [root]) st = (runRoots M roots st).bind (execRoot M · root) := by
  induction roots generalizing st with
  | nil =>
    rw [List.nil_append, runRoots, runRoots, Option.bind_some]
    split
    next executed => rw [executed, runRoots]
    next failed => rw [failed]
  | cons first roots ih =>
    rw [List.cons_append, runRoots, runRoots]
    split
    next => exact ih _
    next => rfl

/-! ## Evaluated nodes -/

variable {memo : Ir → Option (Value Word)} {node tree : Ir} {value : Value Word} {mem : Mem}

theorem eval_of_memo (known : memo node = some value) (mem : Mem) :
    eval M memo mem node = some value := by
  cases node <;> rw [eval, known, Option.some_or]

/-- Evaluating a tree does not change the value of any node. -/
theorem eval_remember (memo : Ir → Option (Value Word)) (mem : Mem) (tree node : Ir) :
    eval M (remember M memo mem tree) mem node = eval M memo mem node := by
  have step (node : Ir) (fallback : Option (Value Word))
      (same : eval M memo mem node = (memo node).or fallback) :
      (remember M memo mem tree node).or fallback = eval M memo mem node := by
    unfold remember
    rw [same]
    cases memo node with
    | some value => rfl
    | none =>
      split
      next =>
        cases fallback <;> rfl
      next => rfl
  induction node with
  | ir0 id opcode size =>
    exact step _ _ rfl
  | ir1 id opcode size left ih =>
    rw [eval, ih]
    exact step _ _ rfl
  | ir2 id opcode size left right ihLeft ihRight =>
    rw [eval, ihLeft, ihRight]
    exact step _ _ rfl

theorem remember_self (known : eval M memo mem tree = some value) :
    remember M memo mem tree tree = some value := by
  unfold remember
  rw [if_pos tree.mem_nodes_self, known]
  cases here : memo tree with
  | none => rfl
  | some other =>
    rw [eval_of_memo M here] at known
    exact known

theorem remember_of_some (known : memo node = some value) :
    remember M memo mem tree node = some value := by
  rw [remember, known, Option.some_or]

theorem remember_isSome (known : (memo node).isSome) : (remember M memo mem tree node).isSome := by
  obtain ⟨value, here⟩ := Option.isSome_iff_exists.mp known
  exact Option.isSome_iff_exists.mpr ⟨value, remember_of_some M here⟩

theorem remember_cases (known : (remember M memo mem tree node).isSome) :
    (memo node).isSome ∨ node ∈ tree.nodes := by
  unfold remember at known
  cases here : memo node with
  | some value => exact Or.inl rfl
  | none =>
    rw [here, Option.none_or] at known
    split at known
    next member => exact Or.inr member
    next => cases known

/-- The value of a tree depends only on the nodes in it. -/
theorem eval_congr {memo' : Ir → Option (Value Word)} (mem : Mem)
    (same : ∀ node ∈ tree.nodes, memo' node = memo node) :
    eval M memo' mem tree = eval M memo mem tree := by
  induction tree with
  | ir0 id opcode size =>
    rw [eval, eval, same _ (Ir.mem_nodes_self _)]
  | ir1 id opcode size left ih =>
    rw [eval, eval, same _ (Ir.mem_nodes_self _),
      ih fun node member => same node (List.mem_cons_of_mem _ member)]
  | ir2 id opcode size left right ihLeft ihRight =>
    rw [eval, eval, same _ (Ir.mem_nodes_self _),
      ihLeft fun node member => same node (List.mem_cons_of_mem _ (List.mem_append_left _ member)),
      ihRight fun node member => same node
        (List.mem_cons_of_mem _ (List.mem_append_right _ member))]

/-- A node that is executed for its effect, or a pop: it has no value of its
own. -/
def Effect (root : Ir) : Prop :=
  ∀ (memo : Ir → Option (Value Word)) (mem : Mem), memo root = none → eval M memo mem root = none

/-- Executing a root that has a value only evaluates it. -/
theorem execRoot_of_value {st : State Word Mem} {root : Ir}
    (known : eval M st.memo st.mem root = some value) :
    ∃ memo, execRoot M st root = some { st with memo := memo } ∧ memo root = some value ∧
      (∀ node, eval M memo st.mem node = eval M st.memo st.mem node) ∧
      (∀ node, (memo node).isSome → (st.memo node).isSome ∨ node ∈ root.nodes) ∧
      ∀ node, (st.memo node).isSome → (memo node).isSome := by
  cases here : st.memo root with
  | some other =>
    refine ⟨st.memo, ?_, ?_, fun _ => rfl, fun _ some => Or.inl some, fun _ some => some⟩
    · rw [execRoot, here]
      rfl
    · rw [eval_of_memo M here] at known
      rw [here, known]
  | none =>
    have performed : perform M st root =
        some { st with memo := remember M st.memo st.mem root } := by
      unfold perform
      split
      all_goals first
        | (rw [known])
        | (exfalso
           rw [eval, here, Option.none_or] at known
           simp [evalOp0, evalOp1, evalOp2, Option.bind_eq_some_iff] at known)
    refine ⟨remember M st.memo st.mem root, ?_, remember_self M known,
      eval_remember M st.memo st.mem root, fun _ some => remember_cases M some,
      fun _ some => remember_isSome M some⟩
    rw [execRoot, here]
    exact performed

end AckFormal.Mcg.IrMachine
