import AckFormal.Data.Arrays
import Mathlib.Algebra.Group.Hom.Defs
import Mathlib.Algebra.Group.Int.Defs

/-!
# Lowering of pushes

`pass_lower_pushes` turns a run of pushes into one adjustment of the stack pointer
and stores relative to it.  A run ends at the first instruction that is no push, or
whose tree accesses the stack pointer; its first push is not tested.
-/

namespace AckFormal.Mcg.LowerPushes

open AckFormal.Data

/-- `EM_pointersize` and `EM_wordsize` of the back end that lowers pushes. -/
def pointersize : Nat := 4

def wordsize : Nat := 4

/-- The opcode, with `u.ivalue` of a constant.  `other` are the opcodes that have
nothing to do with the stack. -/
inductive Opcode where
  | const (value : Int)
  | push | pop | store | add | getsp | setsp | stackadjust | call
  | other (code : Nat)
deriving DecidableEq

/-- `struct ir`, or a null pointer; nodes are named by `id`, and `root` is the name of
the root.  A child with another root belongs to an earlier tree. -/
inductive Ir where
  | null
  | node (opcode : Opcode) (size id root : Nat) (left right : Ir)

namespace Ir

def root : Ir → Option Nat
  | null => none
  | node _ _ _ root _ _ => some root

def opcode : Ir → Option Opcode
  | null => none
  | node opcode _ _ _ _ _ => some opcode

def size : Ir → Nat
  | null => 0
  | node _ size _ _ _ _ => size

def visited : Ir → List Opcode
  | null => []
  | node opcode _ _ root left right =>
    opcode :: ((if left.root = some root then visited left else []) ++
      (if right.root = some root then visited right else []))

end Ir

def accessesStackPointerCb : Opcode → Bool
  | .setsp | .getsp | .call | .stackadjust => true
  | _ => false

def accessesStackPointer (ir : Ir) : Bool := ir.visited.any accessesStackPointerCb

/-- The search for the end of a run, over the instructions that follow the cursor. -/
def runEnd : List Ir → Nat → Nat
  | [], cursor => cursor
  | ir :: irs, cursor =>
    if ir.opcode ≠ some .push then cursor
    else if accessesStackPointer ir then cursor
    else runEnd irs (cursor + 1)

/-- The change of a push into a store; the three new nodes are numbered from `nextId`
on. -/
def storeIr (delta : Int) (nextId : Nat) : Ir → Ir
  | .null => .null
  | .node _ size id root left _ =>
    .node .store size id root
      (.node .add pointersize (nextId + 2) root
        (.node .getsp pointersize nextId root .null .null)
        (.node (.const delta) wordsize (nextId + 1) root .null .null))
      left

/-- The loop over a run, from its last push to the first; the results are the stores,
`delta`, and the next number. -/
def lowerRun : List Ir → Nat → List Ir × Int × Nat
  | [], nextId => ([], 0, nextId)
  | ir :: run, nextId =>
    let (stores, delta, nextId) := lowerRun run nextId
    (storeIr delta nextId ir :: stores, delta + ir.size, nextId + 3)

def adjustIr (delta : Int) (nextId : Nat) : Ir :=
  .node .stackadjust pointersize (nextId + 1) (nextId + 1)
    (.node (.const (-delta)) wordsize nextId (nextId + 1) .null .null) .null

structure Lowering where
  irs : List Ir
  cursor : Nat
  nextId : Nat

def considerPush (ir : Ir) (st : Lowering) : Lowering :=
  if ir.opcode ≠ some .push then { st with cursor := st.cursor + 1 }
  else
    let runstart := st.cursor
    let cursor := runEnd (st.irs.drop (runstart + 1)) (runstart + 1)
    let run := (st.irs.take cursor).drop runstart
    let (stores, delta, nextId) := lowerRun run st.nextId
    let irs := st.irs.take runstart ++ stores ++ st.irs.drop cursor
    ⟨Arrays.insert irs (adjustIr delta nextId) runstart, cursor + 1, nextId + 2⟩

def lowerBlock : Nat → Lowering → Option Lowering
  | 0, _ => none
  | fuel + 1, st =>
    match st.irs[st.cursor]? with
    | none => some st
    | some ir => lowerBlock fuel (considerPush ir st)

def lowerPushes (fuel : Nat) : List (List Ir) → Nat → Option (List (List Ir) × Nat)
  | [], nextId => some ([], nextId)
  | irs :: blocks, nextId =>
    match lowerBlock fuel ⟨irs, 0, nextId⟩ with
    | none => none
    | some st =>
      match lowerPushes fuel blocks st.nextId with
      | none => none
      | some (blocks, nextId) => some (st.irs :: blocks, nextId)

/-! ## Execution -/

/-- What the pass does not decide: values, bytes, what a procedure does and what the
other instructions do.  The latter see and change the memory and the rest of the
world, but not the stack pointer. -/
structure Machine (Address Value Mem World : Type) [AddCommGroup Address] where
  offset : Int →+ Address
  nothing : Value
  pointer : Address → Value
  address : Value → Address
  const : Nat → Int → Value
  add : Nat → Value → Value → Value
  load : Mem → Address → Nat → Value
  store : Mem → Address → Nat → Value → Mem
  call : Nat → Value → Value → Address × Mem × World → (Address × Mem × World) × Value
  other : Nat → Nat → Value → Value → Mem × World → (Mem × World) × Value
  address_pointer : ∀ a, address (pointer a) = a
  address_const : ∀ n, address (const wordsize n) = offset n
  address_add : ∀ x y, address (add pointersize x y) = address x + address y

/-- The stack pointer, the bytes, the rest, and the values of the nodes that have been
evaluated. -/
structure State (Address Value Mem World : Type) where
  sp : Address
  mem : Mem
  world : World
  memo : Nat → Value

section

variable {Address Value Mem World : Type} [AddCommGroup Address]
  (M : Machine Address Value Mem World)

/-- What a node does when its children have been evaluated. -/
def apply (size : Nat) (l r : Value) (st : State Address Value Mem World) :
    Opcode → State Address Value Mem World × Value
  | .const value => (st, M.const size value)
  | .push =>
    let sp := st.sp - M.offset size
    ({ st with sp := sp, mem := M.store st.mem sp size l }, M.nothing)
  | .pop => ({ st with sp := st.sp + M.offset size }, M.load st.mem st.sp size)
  | .store => ({ st with mem := M.store st.mem (M.address l) size r }, M.nothing)
  | .add => (st, M.add size l r)
  | .getsp => (st, M.pointer st.sp)
  | .setsp => ({ st with sp := M.address l }, M.nothing)
  | .stackadjust => ({ st with sp := st.sp + M.address l }, M.nothing)
  | .call =>
    let called := M.call size l r (st.sp, st.mem, st.world)
    ({ st with sp := called.1.1, mem := called.1.2.1, world := called.1.2.2 }, called.2)
  | .other code =>
    let done := M.other code size l r (st.mem, st.world)
    ({ st with mem := done.1.1, world := done.1.2 }, done.2)

def remembered (st : State Address Value Mem World) : Ir → Value
  | .null => M.nothing
  | .node _ _ id _ _ _ => st.memo id

def eval : Ir → State Address Value Mem World → State Address Value Mem World × Value
  | .null, st => (st, M.nothing)
  | .node opcode size id root left right, st =>
    let l := if left.root = some root then eval left st else (st, remembered M st left)
    let r := if right.root = some root then eval right l.1 else (l.1, remembered M l.1 right)
    let done := apply M size l.2 r.2 r.1 opcode
    ({ done.1 with memo := Function.update done.1.memo id done.2 }, done.2)

def run (irs : List Ir) (st : State Address Value Mem World) : State Address Value Mem World :=
  irs.foldl (fun st ir => (eval M ir st).1) st

end

/-! ## Blocks -/

def usesStackPointer : Opcode → Bool
  | .push | .pop => true
  | opcode => accessesStackPointerCb opcode

def Ir.descendants : Ir → List Opcode
  | .null => []
  | .node _ _ _ root left right =>
    (if left.root = some root then left.visited else []) ++
      (if right.root = some root then right.visited else [])

/-- The nodes of a tree, and those it refers to, have been made before `next`. -/
def Ir.MadeBefore (next : Nat) : Ir → Prop
  | .null => True
  | .node _ _ id _ left right => id < next ∧ left.MadeBefore next ∧ right.MadeBefore next

/-- A block in which pushes are roots with one child, and the value of no push uses
the stack pointer. -/
structure Formed (next : Nat) (irs : List Ir) : Prop where
  made : ∀ ir ∈ irs, ir.MadeBefore next
  roots : ∀ ir ∈ irs, Opcode.push ∉ ir.descendants
  unary : ∀ ir ∈ irs, ir.opcode = some .push →
    ∃ size id root left, ir = .node .push size id root left .null
  values : ∀ ir ∈ irs, ir.opcode = some .push →
    ∀ opcode ∈ ir.descendants, usesStackPointer opcode = false

/-- The same stack pointer, bytes and world, and the same values of the nodes made
before `next`. -/
structure Same {Address Value Mem World : Type} (next : Nat)
    (st st' : State Address Value Mem World) : Prop where
  sp : st.sp = st'.sp
  mem : st.mem = st'.mem
  world : st.world = st'.world
  memo : ∀ id < next, st.memo id = st'.memo id

/-- The place between two instructions is not inside a run of pushes. -/
def OutsideRuns (before after : List Ir) : Prop :=
  ¬ ((∃ ir ∈ before.getLast?, ir.opcode = some .push) ∧
    ∃ ir ∈ after.head?, ir.opcode = some .push)

/-- No push is left, and wherever execution is not inside a run of pushes the state
is the same, with the same instruction next if that is no push. -/
structure Preserved (next : Nat) (irs irs' : List Ir) : Prop where
  noPush : ∀ ir ∈ irs', Opcode.push ∉ ir.visited
  same : ∀ before after, irs = before ++ after → OutsideRuns before after →
    ∃ before' after', irs' = before' ++ after' ∧
      (∀ ir ∈ after.head?, ir.opcode ≠ some .push → after'.head? = some ir) ∧
      (after = [] → after' = []) ∧
      ∀ (Address Value Mem World : Type) [AddCommGroup Address]
        (M : Machine Address Value Mem World) (st : State Address Value Mem World),
        Same next (run M before st) (run M before' st)

end AckFormal.Mcg.LowerPushes
