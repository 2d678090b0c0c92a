import AckFormal.Mcg.IrMachine

/-!
# The tree builder

`generate_tree` turns the EM instructions of a basic block into IR.  Values stay
on a stack of the compiler for as long as possible; instructions that find it
empty pop the real stack.  An error stands for a call of `fatal`.
-/

namespace AckFormal.Mcg.Treebuilder

open IrMachine

inductive Fatal where
  | stackOverflow
  | expectedSize (expected found : Nat)
  | cannotDo (size : Nat)

/-- `next_id` of `ir.c`, `stack` with its top in front, and the IR of the
current block. -/
structure Builder where
  next : Nat
  stack : List Ir
  irs : List Ir

def newIr0 (opcode : Op0) (size : Nat) (tb : Builder) : Ir × Builder :=
  (.ir0 tb.next opcode size, { tb with next := tb.next + 1 })

def newIr1 (opcode : Op1) (size : Nat) (left : Ir) (tb : Builder) : Ir × Builder :=
  (.ir1 tb.next opcode size left, { tb with next := tb.next + 1 })

def newIr2 (opcode : Op2) (size : Nat) (left right : Ir) (tb : Builder) : Ir × Builder :=
  (.ir2 tb.next opcode size left right, { tb with next := tb.next + 1 })

def newWordir (value : Int) (tb : Builder) : Ir × Builder := newIr0 (.const value) wordsize tb

def push (ir : Ir) (tb : Builder) : Except Fatal Builder :=
  if tb.stack.length = 64 then .error .stackOverflow
  else .ok { tb with stack := ir :: tb.stack }

def peek (tb : Builder) (delta : Nat) : Nat :=
  match tb.stack[delta]? with
  | some ir => ir.size
  | none => wordsize

def appendir (ir : Ir) (tb : Builder) : Builder :=
  if ir ∈ tb.irs then tb else { tb with irs := tb.irs ++ [ir] }

/-- The body of `pop`; `popWord` is its call of itself for one word. -/
def popWith (popWord : Builder → Except Fatal (Ir × Builder)) (size : Nat) (tb : Builder) :
    Except Fatal (Ir × Builder) :=
  match tb.stack with
  | [] =>
    let (ir, tb) := newIr0 .pop size tb
    .ok (ir, appendir ir tb)
  | ir :: stack =>
    let tb := { tb with stack := stack }
    if ir.size = size then .ok (ir, tb)
    else if size = 2 * wordsize ∧ ir.size = wordsize then do
      let (other, tb) ← popWord tb
      return newIr2 .fromipair size ir other tb
    else if size = wordsize ∧ ir.size = 2 * wordsize then do
      let tb := appendir ir tb
      let (high, tb) := newIr1 .froml1 wordsize ir tb
      let tb ← push high tb
      return newIr1 .froml0 wordsize ir tb
    else .error (.expectedSize size ir.size)

/-- `pop`.  The call of itself is for one word and does not recur. -/
def pop (size : Nat) (tb : Builder) : Except Fatal (Ir × Builder) :=
  popWith (popWith (fun _ => .error .stackOverflow) wordsize) (max size wordsize) tb

/-- `sequence_point`: everything on the stack is evaluated now. -/
def sequencePoint (tb : Builder) : Builder :=
  tb.stack.foldr appendir tb

def pushAll : List Ir → Builder → Builder
  | [], tb => tb
  | ir :: above, tb =>
    let (root, tb) := newIr1 .push ir.size ir tb
    pushAll above (appendir root tb)

def materialiseStack (tb : Builder) : Builder :=
  { pushAll tb.stack.reverse tb with stack := [] }

def withOffset (address : Ir) (offset : Int) (tb : Builder) : Ir × Builder :=
  if offset ≠ 0 then
    let (word, tb) := newWordir offset tb
    newIr2 .add pointersize address word tb
  else (address, tb)

def store (size : Nat) (address : Ir) (offset : Int) (value : Ir) (tb : Builder) : Ir × Builder :=
  let tb := sequencePoint tb
  let (opcode, size) :=
    if size = 1 then (.storeb, wordsize)
    else if size < wordsize ∧ size = 2 then (.storeh, wordsize)
    else (.store, size)
  let (address, tb) := withOffset address offset tb
  newIr2 opcode size address value tb

def load (size : Nat) (address : Ir) (offset : Int) (tb : Builder) : Ir × Builder :=
  let (opcode, size) :=
    if size = 1 then (.loadb, wordsize)
    else if size < wordsize ∧ size = 2 then (.loadh, wordsize)
    else (.load, size)
  let (address, tb) := withOffset address offset tb
  newIr1 opcode size address tb

def call (name : String) (tb : Builder) : Builder :=
  let (label, tb) := newIr0 (.label name) pointersize (materialiseStack tb)
  let (ir, tb) := newIr1 .call 0 label tb
  appendir ir tb

def helperWithSize (name : String) (size : Nat) (tb : Builder) : Except Fatal Builder := do
  let (word, tb) := newWordir size tb
  let tb ← push word tb
  return call name tb

def simpleAlu2 (size : Nat) (irop : Op2) (tb : Builder) : Except Fatal Builder :=
  if size > 2 * wordsize then .error (.cannotDo size)
  else do
    let (right, tb) ← pop size tb
    let (left, tb) ← pop size tb
    let (ir, tb) := newIr2 irop size left right tb
    push ir tb

inductive Em where
  | loc (value : Int)
  | lol (offset : Int)
  | stl (offset : Int)
  | lal (offset : Int)
  | loi (size : Nat)
  | sti (size : Nat)
  | adi (size : Nat)
  | sbi (size : Nat)
  | dup (size : Nat)
  | exg (size : Nat)
  | asp (value : Int)
  | cal (name : String)

/-- The loop of `op_loi`, which loads backwards.  Every round takes some of
`size`, so that many rounds are enough. -/
def loiLoop (ptr : Ir) : Nat → Nat → Builder → Except Fatal Builder
  | 0, _, tb => .ok tb
  | rounds + 1, size, tb =>
    if size = 0 then .ok tb
    else do
      let s := min size (2 * wordsize)
      let (ir, tb) := load s ptr (size - s : Nat) tb
      let tb ← push ir tb
      loiLoop ptr rounds (size - s) tb

def opLoi (size : Nat) (tb : Builder) : Except Fatal Builder := do
  let (ptr, tb) ← pop pointersize tb
  let tb := if size > 2 * wordsize then appendir ptr tb else tb
  loiLoop ptr size size tb

def stiLoop (ptr : Ir) : Nat → Nat → Int → Builder → Except Fatal Builder
  | 0, _, _, tb => .ok tb
  | rounds + 1, size, offset, tb =>
    if size = 0 then .ok tb
    else do
      let (value, tb) ← pop (peek tb 0) tb
      let s := min size value.size
      let (ir, tb) := store s ptr offset value tb
      stiLoop ptr rounds (size - s) (offset + s) (appendir ir tb)

def opSti (size : Nat) (tb : Builder) : Except Fatal Builder := do
  let (ptr, tb) ← pop pointersize tb
  let tb := if size > peek tb 0 then appendir ptr tb else tb
  stiLoop ptr size size 0 tb

def opDup (size : Nat) (tb : Builder) : Except Fatal Builder :=
  let tb := sequencePoint tb
  if size > 2 * wordsize then helperWithSize ".dus4" size tb
  else if size = 2 * wordsize ∧ peek tb 0 = wordsize ∧ peek tb 1 = wordsize then do
    let (v1, tb) ← pop wordsize tb
    let (v2, tb) ← pop wordsize tb
    let tb ← push v2 tb
    let tb ← push v1 tb
    let tb ← push v2 tb
    push v1 tb
  else do
    let (v, tb) ← pop size tb
    let tb ← push v tb
    push v tb

def opExg (size : Nat) (tb : Builder) : Except Fatal Builder :=
  if size > 2 * wordsize then helperWithSize ".exg" size tb
  else do
    let (v1, tb) ← pop size tb
    let (v2, tb) ← pop size tb
    let tb ← push v1 tb
    push v2 tb

/-- The loop of `op_asp`: takes items off the stack of the compiler and returns
what is left to adjust. -/
def aspLoop : Nat → Int → Builder → Except Fatal (Int × Builder)
  | 0, value, tb => .ok (value, tb)
  | rounds + 1, value, tb =>
    if value > 0 ∧ tb.stack ≠ [] then do
      let s := min (peek tb 0) value.toNat
      let (_, tb) ← pop s tb
      aspLoop rounds (value - s) tb
    else .ok (value, tb)

def opAsp (value : Int) (tb : Builder) : Except Fatal Builder :=
  if value = 0 then .ok tb
  else if value = -1 ∨ value = -2 ∨ value = -4 ∨ value = -8 then
    let (ir, tb) := newIr0 .any (-value).toNat tb
    push ir tb
  else do
    let (value, tb) ← aspLoop value.toNat value tb
    let (word, tb) := newWordir value tb
    let (ir, tb) := newIr1 .stackadjust pointersize word tb
    return appendir ir tb

/-- One instruction: the cases of `insn_ivalue` and, for `cal`, of
`insn_lvalue`. -/
def insn (em : Em) (tb : Builder) : Except Fatal Builder :=
  match em with
  | .loc value =>
    let (ir, tb) := newWordir value tb
    push ir tb
  | .lol offset =>
    let (address, tb) := newIr0 (.localAt offset) pointersize tb
    let (ir, tb) := load wordsize address 0 tb
    push ir tb
  | .stl offset => do
      -- C leaves open which argument of `store` is evaluated first
      let (value, tb) ← pop wordsize tb
      let (address, tb) := newIr0 (.localAt offset) pointersize tb
      let (ir, tb) := store wordsize address 0 value tb
      return appendir ir tb
  | .lal offset =>
    let (ir, tb) := newIr0 (.localAt offset) pointersize tb
    push ir tb
  | .loi size => opLoi size tb
  | .sti size => opSti size tb
  | .adi size => simpleAlu2 size .add tb
  | .sbi size => simpleAlu2 size .sub tb
  | .dup size => opDup size tb
  | .exg size => opExg size tb
  | .asp value => opAsp value tb
  | .cal name => .ok (call name tb)

def insns : List Em → Builder → Except Fatal Builder
  | [], tb => .ok tb
  | em :: ems, tb =>
    match insn em tb with
    | .ok tb => insns ems tb
    | .error fatal => .error fatal

def generateTree (next : Nat) (ems : List Em) : Except Fatal Builder :=
  insns ems ⟨next, [], []⟩

end AckFormal.Mcg.Treebuilder
