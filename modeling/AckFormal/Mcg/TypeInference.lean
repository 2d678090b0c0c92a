import AckFormal.Data.Arrays

/-!
# Type inference

`pass_infer_types` gives types to the nodes, by rules that pull and push them along
the edges until nothing changes, and then inserts copies where a parent wants another
type than its child has.
-/

namespace AckFormal.Mcg.TypeInference

open AckFormal.Data

inductive Ty where
  | I | F | L | D
deriving DecidableEq

/-- A character of the second column of the table; `ignore` is `.`, and `any` is `?`. -/
inductive Rule where
  | exactly (type : Ty)
  | int | float | ignore | any
deriving DecidableEq

inductive Opcode where
  | const | reg | nop | label | block | pair | any | locals | phi
  | push | pop
  | load | loadb | loadh | store | storeb | storeh
  | add | sub | mul | div | divu | mod | modu | neg
  | addf | subf | mulf | divf | negf
  | and | or | eor | not | asl | asr | lsl | lsr
  | copyi | copyf | copyl | copyd
  | fromui | fromul | fromsi | fromsl | fromuf | fromud | fromsf | fromsd
  | fromipair | froml0 | froml1
  | extendb | extendh | truncateb | truncateh
  | comparesi | comparesl | compareui | compareul | comparef | compared
  | ifeq | iflt | ifle
  | call | getret | setret
  | jump | farjump | cjumpeq | cjumplt | cjumple | ret
  | stackadjust | getfp | setfp | getsp | setsp | chainfp | fptoab | fptolb
deriving DecidableEq

structure IrData where
  returntype : Rule
  lefttype : Rule
  righttype : Rule

def irData : Opcode → IrData
  | .const | .reg | .pair | .any | .locals | .phi | .pop => ⟨.any, .ignore, .ignore⟩
  | .nop | .push => ⟨.any, .any, .ignore⟩
  | .label | .block => ⟨.exactly .I, .ignore, .ignore⟩
  | .load | .fromui | .fromsi => ⟨.any, .exactly .I, .ignore⟩
  | .loadb | .loadh | .extendb | .extendh | .truncateb | .truncateh | .ifeq | .iflt | .ifle =>
    ⟨.exactly .I, .exactly .I, .ignore⟩
  | .store | .storeb | .storeh => ⟨.any, .exactly .I, .any⟩
  | .add | .sub | .mul | .div | .divu | .mod | .modu | .neg
  | .and | .or | .eor | .not | .asl | .asr | .lsl | .lsr => ⟨.int, .int, .int⟩
  | .addf | .subf | .mulf | .divf | .negf => ⟨.float, .float, .float⟩
  | .copyi => ⟨.exactly .F, .exactly .I, .ignore⟩
  | .copyf => ⟨.exactly .I, .exactly .F, .ignore⟩
  | .copyl => ⟨.exactly .D, .exactly .L, .ignore⟩
  | .copyd => ⟨.exactly .L, .exactly .D, .ignore⟩
  | .fromul | .fromsl => ⟨.any, .exactly .L, .ignore⟩
  | .fromuf | .fromsf => ⟨.any, .exactly .F, .ignore⟩
  | .fromud | .fromsd => ⟨.any, .exactly .D, .ignore⟩
  | .fromipair => ⟨.exactly .L, .exactly .I, .exactly .I⟩
  | .froml0 | .froml1 => ⟨.exactly .I, .exactly .L, .ignore⟩
  | .comparesi | .compareui => ⟨.exactly .I, .exactly .I, .exactly .I⟩
  | .comparesl | .compareul => ⟨.exactly .I, .exactly .L, .exactly .L⟩
  | .comparef => ⟨.exactly .I, .exactly .F, .exactly .F⟩
  | .compared => ⟨.exactly .I, .exactly .D, .exactly .D⟩
  | .call => ⟨.int, .exactly .I, .ignore⟩
  | .getret => ⟨.int, .any, .ignore⟩
  | .setret | .stackadjust | .setfp | .setsp => ⟨.any, .int, .ignore⟩
  | .jump | .farjump | .cjumpeq | .cjumplt | .cjumple => ⟨.ignore, .int, .ignore⟩
  | .ret => ⟨.ignore, .ignore, .ignore⟩
  | .getfp | .getsp => ⟨.int, .ignore, .ignore⟩
  | .chainfp | .fptoab | .fptolb => ⟨.int, .int, .ignore⟩

/-- `struct ir`; nodes and blocks are named by numbers.  Of `u` only `phivalue` is read,
which is empty in nodes that are no phis. -/
structure Ir where
  opcode : Opcode
  size : Nat
  type : Option Ty
  left : Option Nat
  right : Option Nat
  root : Nat
  phivalue : List (Nat × Nat)

/-- The nodes made so far, the arrays `irs` of the blocks, and `cfg.preorder`. -/
structure Graph where
  node : Nat → Ir
  nextId : Nat
  irs : Nat → List Nat
  preorder : List Nat

/-- Why the pass does not return: a call of `fatal`, a null pointer, or a recursion or
loop longer than the fuel. -/
inductive Failure where
  | fatal | null | fuel
deriving DecidableEq

/-! ## The nodes -/

mutual

def addall (graph : Graph) : Nat → Nat → List Nat → Except Failure (List Nat)
  | 0, _, _ => .error .fuel
  | fuel + 1, ir, irs =>
    let added := Arrays.appendu irs ir
    if added.2 then .ok irs
    else
      match addChild graph fuel (graph.node ir).left added.1 with
      | .error failure => .error failure
      | .ok irs => addChild graph fuel (graph.node ir).right irs

def addChild (graph : Graph) : Nat → Option Nat → List Nat → Except Failure (List Nat)
  | _, none, irs => .ok irs
  | 0, some _, _ => .error .fuel
  | fuel + 1, some child, irs => addall graph fuel child irs

end

def addRoots (graph : Graph) (fuel : Nat) : List Nat → List Nat → Except Failure (List Nat)
  | [], irs => .ok irs
  | ir :: roots, irs =>
    match addall graph fuel ir irs with
    | .error failure => .error failure
    | .ok irs => addRoots graph fuel roots irs

def collectIrs (graph : Graph) (fuel : Nat) : Except Failure (List Nat) :=
  addRoots graph fuel (graph.preorder.flatMap graph.irs) []

/-! ## Propagation -/

def effectiveType (wordsize size : Nat) : Rule → Option Ty
  | .exactly type => some type
  | .int => if size = wordsize then some .I else if size = wordsize * 2 then some .L else none
  | .float => if size = wordsize then some .F else if size = wordsize * 2 then some .D else none
  | .ignore | .any => none

structure Types where
  type : Nat → Option Ty
  changed : Bool

namespace Types

def set (types : Types) (ir : Nat) (type : Ty) : Types :=
  ⟨Function.update types.type ir (some type), true⟩

def fill (types : Types) (ir : Nat) (type : Option Ty) : Types :=
  match types.type ir, type with
  | none, some type => types.set ir type
  | _, _ => types

end Types

section

variable (wordsize : Nat) (graph : Graph)

def pushToOperands (type : Ty) : List (Nat × Nat) → Types → Types
  | [], types => types
  | operand :: operands, types => pushToOperands type operands (types.fill operand.2 (some type))

def firstType : List (Nat × Nat) → Types → Option Ty
  | [], _ => none
  | operand :: operands, types =>
    match types.type operand.2 with
    | some type => some type
    | none => firstType operands types

def scanPhi (ir : Nat) (types : Types) : Types :=
  match types.type ir with
  | some type => pushToOperands type (graph.node ir).phivalue types
  | none => types.fill ir (firstType (graph.node ir).phivalue types)

/-- A child that takes any type gets the one its parent wants. -/
def demand (ir : Nat) (child : Option Nat) (rule : Rule) (types : Types) : Types :=
  match child with
  | none => types
  | some child =>
    if (irData (graph.node child).opcode).returntype = .any then
      types.fill child (effectiveType wordsize (graph.node ir).size rule)
    else types

def pull (ir : Nat) (child : Option Nat) (rule : Rule) (types : Types) : Except Failure Types :=
  if rule = .any then
    match child with
    | none => .error .null
    | some child =>
      match types.type child with
      | none => .ok types
      | some type => .ok (types.set ir type)
  else .ok types

def pullBoth (ir : Nat) (types : Types) : Except Failure Types :=
  let node := graph.node ir
  let ird := irData node.opcode
  if types.type ir = none ∧ ird.returntype = .any then
    match pull ir node.left ird.lefttype types with
    | .error failure => .error failure
    | .ok types => pull ir node.right ird.righttype types
  else .ok types

def push (ir : Nat) (child : Option Nat) (rule : Rule) (types : Types) : Except Failure Types :=
  if types.type ir ≠ none ∧ rule = .any then
    match child with
    | none => .error .null
    | some child => .ok (types.fill child (types.type ir))
  else .ok types

def scanIr (ir : Nat) (types : Types) : Except Failure Types :=
  let node := graph.node ir
  let ird := irData node.opcode
  if node.opcode = .phi then .ok (scanPhi graph ir types)
  else
    let types := types.fill ir (effectiveType wordsize node.size ird.returntype)
    let types := demand wordsize graph ir node.left ird.lefttype types
    let types := demand wordsize graph ir node.right ird.righttype types
    match pullBoth graph ir types with
    | .error failure => .error failure
    | .ok types =>
      match push ir node.left ird.lefttype types with
      | .error failure => .error failure
      | .ok types => push ir node.right ird.righttype types

def scanIrs : List Nat → Types → Except Failure Types
  | [], types => .ok types
  | ir :: irs, types =>
    match scanIr wordsize graph ir types with
    | .error failure => .error failure
    | .ok types => scanIrs irs types

def propagateTypes (irs : List Nat) : Nat → (Nat → Option Ty) → Except Failure (Nat → Option Ty)
  | 0, _ => .error .fuel
  | fuel + 1, type =>
    match scanIrs wordsize graph irs ⟨type, false⟩ with
    | .error failure => .error failure
    | .ok types => if types.changed then propagateTypes irs fuel types.type else .ok types.type

def assignFallbackTypes : List Nat → (Nat → Option Ty) → Nat → Option Ty
  | [], type => type
  | ir :: irs, type =>
    let node := graph.node ir
    let type :=
      if type ir = none ∧ (irData node.opcode).returntype = .any then
        Function.update type ir (effectiveType wordsize node.size .int)
      else type
    assignFallbackTypes irs type

end

def Graph.withTypes (graph : Graph) (type : Nat → Option Ty) : Graph :=
  { graph with node := fun ir => { graph.node ir with type := type ir } }

/-! ## Copies -/

def copyOpcode : Ty → Ty → Option Opcode
  | .F, .I => some .copyi
  | .D, .L => some .copyl
  | .I, .F => some .copyf
  | .L, .D => some .copyd
  | _, _ => none

/-- `new_copy`, with `root` assigned; the copy has the number `nextId`. -/
def newCopy (graph : Graph) (wanted real : Option Ty) (ir root : Nat) : Except Failure Graph :=
  match wanted, real with
  | some wanted, some real =>
    match copyOpcode wanted real with
    | none => .error .fatal
    | some opcode =>
      let copy : Ir := ⟨opcode, (graph.node ir).size, some wanted, some ir, none, root, []⟩
      .ok { graph with
        node := Function.update graph.node graph.nextId copy
        nextId := graph.nextId + 1 }
  | _, _ => .error .fatal

def wanted (wordsize : Nat) (node : Ir) (returntype childtype : Rule) : Option Ty :=
  if returntype = .any ∧ childtype = .any then node.type
  else effectiveType wordsize node.size childtype

/-- `insert_copy`; the result is the child the parent then has. -/
def insertCopy (wordsize : Nat) (graph : Graph) (ir : Nat) (child : Option Nat)
    (returntype childtype : Rule) : Except Failure (Graph × Option Nat) :=
  match child with
  | none => .ok (graph, none)
  | some child =>
    let node := graph.node ir
    let real := (graph.node child).type
    match wanted wordsize node returntype childtype with
    | none => .ok (graph, some child)
    | some wanted =>
      if some wanted ≠ real then
        match newCopy graph (some wanted) real child node.root with
        | .error failure => .error failure
        | .ok copied => .ok (copied, some graph.nextId)
      else .ok (graph, some child)

def Graph.setLeft (graph : Graph) (ir : Nat) (left : Option Nat) : Graph :=
  { graph with node := Function.update graph.node ir { graph.node ir with left := left } }

def Graph.setRight (graph : Graph) (ir : Nat) (right : Option Nat) : Graph :=
  { graph with node := Function.update graph.node ir { graph.node ir with right := right } }

def insertCopies (wordsize : Nat) (graph : Graph) (ir : Nat) : Except Failure Graph :=
  let node := graph.node ir
  let ird := irData node.opcode
  match insertCopy wordsize graph ir node.left ird.returntype ird.lefttype with
  | .error failure => .error failure
  | .ok (graph, left) =>
    let graph := graph.setLeft ir left
    match insertCopy wordsize graph ir (graph.node ir).right ird.returntype ird.righttype with
    | .error failure => .error failure
    | .ok (graph, right) => .ok (graph.setRight ir right)

def insertIrCopies (wordsize : Nat) : List Nat → Graph → Except Failure Graph
  | [], graph => .ok graph
  | ir :: irs, graph =>
    match insertCopies wordsize graph ir with
    | .error failure => .error failure
    | .ok graph => insertIrCopies wordsize irs graph

/-- The copy of an operand goes before the last node of its block. -/
def Graph.insertBeforeLast (graph : Graph) (bb copy : Nat) : Graph :=
  { graph with
    irs := Function.update graph.irs bb
      (Arrays.insert (graph.irs bb) copy ((graph.irs bb).length - 1)) }

/-- The loop over `phivalue`; the results are the operands from `operands` on. -/
def insertOperandCopies (ir : Nat) :
    List (Nat × Nat) → Graph → Except Failure (Graph × List (Nat × Nat))
  | [], graph => .ok (graph, [])
  | (childbb, child) :: operands, graph =>
    let wanted := (graph.node ir).type
    let real := (graph.node child).type
    if wanted ≠ real then
      match newCopy graph wanted real child graph.nextId with
      | .error failure => .error failure
      | .ok copied =>
        match insertOperandCopies ir operands
            (copied.insertBeforeLast childbb graph.nextId) with
        | .error failure => .error failure
        | .ok (after, operands) => .ok (after, (childbb, graph.nextId) :: operands)
    else
      match insertOperandCopies ir operands graph with
      | .error failure => .error failure
      | .ok (after, operands) => .ok (after, (childbb, child) :: operands)

def insertPhiCopies : List Nat → Graph → Except Failure Graph
  | [], graph => .ok graph
  | ir :: irs, graph =>
    match insertOperandCopies ir (graph.node ir).phivalue graph with
    | .error failure => .error failure
    | .ok (graph, phivalue) =>
      insertPhiCopies irs
        { graph with
          node := Function.update graph.node ir { graph.node ir with phivalue := phivalue } }

/-- `pass_infer_types`; the first result is the list of nodes it has collected. -/
def passInferTypes (wordsize fuel : Nat) (graph : Graph) : Except Failure (List Nat × Graph) :=
  match collectIrs graph fuel with
  | .error failure => .error failure
  | .ok irs =>
    match propagateTypes wordsize graph irs fuel fun ir => (graph.node ir).type with
    | .error failure => .error failure
    | .ok type =>
      let typed := graph.withTypes (assignFallbackTypes wordsize graph irs type)
      match insertIrCopies wordsize irs typed with
      | .error failure => .error failure
      | .ok graph =>
        match insertPhiCopies irs graph with
        | .error failure => .error failure
        | .ok graph => .ok (irs, graph)

end AckFormal.Mcg.TypeInference
