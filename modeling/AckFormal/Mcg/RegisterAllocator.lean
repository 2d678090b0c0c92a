import AckFormal.Data.Pmap

/-!
# Register selection for one instruction

`select_registers` decides in which hardware registers the virtual registers of
a hop live before and after it.  Registers are pointers into a heap of
`struct hreg`, which grows when a stack slot is needed.  A result of `none`
stands for a failed assertion or for the use of a null pointer.
-/

namespace AckFormal.Mcg.RegisterAllocator

open AckFormal.Data

abbrev Hreg := Nat

abbrev Vreg := Nat

structure HregData where
  attrs : UInt32
  isStacked : Bool
  aliases : List Hreg

structure Constraint where
  attrs : UInt32
  equalsTo : Option Vreg

/-- What is fixed about the virtual registers: their types and the phi
congruence group they belong to. -/
structure Vregs where
  type : Vreg → UInt32
  congruence : Vreg → Option Nat

/-- `struct hop`, with `corrupts` of its `insndata`.  Outputs are new virtual
registers, and an output is tied only to an input. -/
structure Hop where
  corrupts : UInt32
  constraints : List (Vreg × Constraint)
  ins : List Vreg
  outs : List Vreg
  throughs : List Vreg
  fresh : ∀ v ∈ outs, v ∉ throughs
  tied : ∀ node ∈ constraints, ∀ e ∈ node.2.equalsTo, e ∈ ins

abbrev Assignment := List (Hreg × Vreg)

/-- The heap of registers, the global variables of the pass and the stack slots
remembered in virtual registers and congruence groups. -/
structure State where
  hreg : Hreg → HregData
  next : Hreg
  hregs : List Hreg
  slot : Vreg → Option Hreg
  groupSlot : Nat → Option Hreg
  ins : Assignment
  outs : Assignment
  evicted : List (Vreg × Hreg)

def meets (a b : UInt32) : Bool := a &&& b != 0

variable (vregs : Vregs) (hop : Hop)

def registerUsed (st : State) (regs : Assignment) (h : Hreg) : Bool :=
  (st.hreg h).aliases.any fun other => (Pmap.findleft regs other).isSome

def constraintsMatch (st : State) (h : Hreg) (v : Vreg) : Bool :=
  match Pmap.findleft hop.constraints v with
  | some c => meets (st.hreg h).attrs c.attrs
  | none => true

def typeMatches (st : State) (h : Hreg) (v : Vreg) : Bool :=
  meets (st.hreg h).attrs (vregs.type v)

def corrupted (st : State) (h : Hreg) : Bool :=
  meets (st.hreg h).attrs hop.corrupts

def evictable (st : State) (h : Hreg) : Bool :=
  (st.hreg h).aliases.all fun other => Pmap.findleft st.ins other == Pmap.findleft st.outs other

def evictAlias (st : State) (other : Hreg) : State :=
  match Pmap.findleft st.ins other with
  | none => st
  | some candidate =>
    if Pmap.findleft st.outs other = some candidate then
      { st with
        evicted := Pmap.put st.evicted candidate other
        ins := Pmap.remove st.ins other candidate
        outs := Pmap.remove st.outs other candidate }
    else st

def evict (st : State) (v : Vreg) : Option (Hreg × State) :=
  match st.hregs.find? fun h =>
      typeMatches vregs st h v && constraintsMatch hop st h v && evictable st h with
  | some h => some (h, (st.hreg h).aliases.foldl evictAlias st)
  | none => none

def allocatableStackableInput (st : State) (h : Hreg) (v : Vreg) : Bool :=
  !registerUsed st st.ins h && typeMatches vregs st h v

def allocatableStackableOutput (st : State) (h : Hreg) (v : Vreg) : Bool :=
  !registerUsed st st.outs h && typeMatches vregs st h v

def allocatableInput (st : State) (h : Hreg) (v : Vreg) : Bool :=
  allocatableStackableInput vregs st h v && constraintsMatch hop st h v && !(st.hreg h).isStacked

def allocatableOutput (st : State) (h : Hreg) (v : Vreg) : Bool :=
  allocatableStackableOutput vregs st h v && constraintsMatch hop st h v && !(st.hreg h).isStacked

def allocatableThrough (st : State) (h : Hreg) (v : Vreg) : Bool :=
  allocatableStackableInput vregs st h v && allocatableStackableOutput vregs st h v &&
    !corrupted hop st h

def findInputReg (st : State) (v : Vreg) : Option Hreg :=
  st.hregs.find? fun h => allocatableInput vregs hop st h v

def findOutputReg (st : State) (v : Vreg) : Option Hreg :=
  st.hregs.find? fun h => allocatableOutput vregs hop st h v

def findThroughReg (st : State) (v : Vreg) : Option Hreg :=
  st.hregs.find? fun h => allocatableThrough vregs hop st h v

def placeInput (st : State) (v : Vreg) : Option State :=
  match findInputReg vregs hop st v with
  | some h => some { st with ins := Pmap.add st.ins h v }
  | none =>
    match evict vregs hop st v with
    | some (h, st) => some { st with ins := Pmap.add st.ins h v }
    | none => none

def addInputRegister (st : State) (v : Vreg) : Option Hreg → Option State
  | none => placeInput vregs hop st v
  | some h =>
    if !constraintsMatch hop st h v then placeInput vregs hop st v
    else if (st.hreg h).isStacked then
      if v ∈ hop.throughs then
        match findThroughReg vregs hop st v with
        | some new => some
            { st with
              ins := Pmap.add (Pmap.remove st.ins h v) new v
              outs := Pmap.add (Pmap.remove st.outs h v) new v }
        | none => none
      else placeInput vregs hop { st with ins := Pmap.remove st.ins h v } v
    else if Pmap.findleft st.ins h = some v ∨ allocatableInput vregs hop st h v then
      some { st with ins := Pmap.add st.ins h v }
    else placeInput vregs hop st v

/-- The end of the branch for an equality constraint of `add_output_register`:
a matched pair of input and output registers. -/
def placeTied (st : State) (v e : Vreg) (h : Hreg) : State :=
  { st with outs := Pmap.add st.outs h v, ins := Pmap.add st.ins h e }

def addOutputRegister (st : State) (v : Vreg) : Option State :=
  match Pmap.findleft hop.constraints v with
  | none => none
  | some c =>
    match c.equalsTo with
    | some e =>
      match Pmap.findright st.ins e with
      | none => none
      | some h =>
        if allocatableOutput vregs hop st h e then
          some { st with outs := Pmap.add st.outs h v }
        else
          match findThroughReg vregs hop st v with
          | some h => some (placeTied st v e h)
          | none =>
            match evict vregs hop st v with
            | some (h, st) => some (placeTied st v e h)
            | none => none
    | none =>
      match findOutputReg vregs hop st v with
      | some h => some { st with outs := Pmap.add st.outs h v }
      | none =>
        match evict vregs hop st v with
        | some (h, st) => some { st with outs := Pmap.add st.outs h v }
        | none => none

def addThroughRegister (st : State) (v : Vreg) : Option Hreg → Option State
  | none => none
  | some h =>
    if allocatableThrough vregs hop st h v ∨
        (Pmap.findleft st.ins h = some v ∧ Pmap.findleft st.outs h = some v) then
      some { st with ins := Pmap.put st.ins h v, outs := Pmap.put st.outs h v }
    else
      some
        { st with
          evicted := Pmap.put st.evicted v h
          ins := Pmap.remove st.ins h v
          outs := Pmap.remove st.outs h v }

def findHome (st : State) (v : Vreg) : Option Hreg :=
  st.hregs.find? fun h =>
    !(st.hreg h).isStacked && typeMatches vregs st h v && allocatableThrough vregs hop st h v

/-- The stack slot of a virtual register: its own, that of its congruence group,
or a new one for both. -/
def slotFor (st : State) (v : Vreg) : Hreg × State :=
  match st.slot v with
  | some s => (s, st)
  | none =>
    match (vregs.congruence v).bind st.groupSlot with
    | some s => (s, { st with slot := Function.update st.slot v (some s) })
    | none =>
      (st.next,
        { st with
          hreg := Function.update st.hreg st.next ⟨vregs.type v, true, [st.next]⟩
          next := st.next + 1
          slot := Function.update st.slot v (some st.next)
          groupSlot := match vregs.congruence v with
            | some group => Function.update st.groupSlot group (some st.next)
            | none => st.groupSlot })

def settle (st : State) (v : Vreg) (h : Hreg) : State :=
  { st with ins := Pmap.add st.ins h v, outs := Pmap.add st.outs h v }

def findNewHome (st : State) (v : Vreg) : State :=
  match findHome vregs hop st v with
  | some h => settle st v h
  | none =>
    let (s, st) := slotFor vregs st v
    settle { st with hregs := st.hregs ++ [s] } v s

/-- One of the loops of `select_registers`, over virtual registers. -/
def overVregs (body : State → Vreg → Option State) : List Vreg → State → Option State
  | [], st => some st
  | v :: rest, st =>
    match body st v with
    | some st => overVregs body rest st
    | none => none

/-- The first three loops of `select_registers`: throughs, inputs, outputs. -/
def placeOperands (old : Assignment) (st : State) : Option State :=
  match overVregs (fun st v => addThroughRegister vregs hop st v (Pmap.findright old v))
      hop.throughs { st with ins := [], outs := [], evicted := [] } with
  | none => none
  | some st =>
    match overVregs (fun st v => addInputRegister vregs hop st v (Pmap.findright old v))
        hop.ins st with
    | none => none
    | some st => overVregs (addOutputRegister vregs hop) hop.outs st

def rehome : List (Vreg × Hreg) → State → State
  | [], st => st
  | (v, _) :: rest, st => rehome rest (findNewHome vregs hop st v)

/-- `select_registers`; `regsin` and `regsout` of the hop are empty at first. -/
def selectRegisters (old : Assignment) (st : State) : Option State :=
  match placeOperands vregs hop old st with
  | some st => some (rehome vregs hop st.evicted st)
  | none => none

end AckFormal.Mcg.RegisterAllocator
