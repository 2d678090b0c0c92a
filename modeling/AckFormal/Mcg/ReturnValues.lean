import AckFormal.Data.Arrays
import AckFormal.Data.Pmap

/-!
# Values of calls

`lfr` reads the value that the last call has left.  `pass_wire_up_return_values`
looks backwards for that call, through a chain of blocks with one predecessor
each; where a block has another number of predecessors a phi is put at its head,
with an operand from a search in each of them.
-/

namespace AckFormal.Mcg.ReturnValues

open AckFormal.Data

inductive Opcode where
  | call | stackadjust | getret | jump | nop | phi
  | other (code : Nat)
deriving DecidableEq

/-- `struct ir`.  Nodes and blocks are named by numbers. -/
structure Ir where
  opcode : Opcode
  size : Nat
  left : Option Nat
  phivalue : List (Nat × Nat)

/-- The instructions of the blocks, the nodes, and the number of the next node. -/
structure State where
  irs : Nat → List Nat
  ir : Nat → Ir
  nextId : Nat

inductive Failure where
  | fatal | fuel
deriving DecidableEq

/-- How the loop of `find_call` over the instructions ends. -/
inductive Scan where
  | found (ir : Nat)
  | corrupted
  | top

def scan (ir : Nat → Ir) : List Nat → Scan
  | [] => .top
  | here :: rest =>
    match (ir here).opcode with
    | .call => .found here
    | .stackadjust | .getret | .jump => scan ir rest
    | _ => .corrupted

/-- The instructions up to the index; `none` is the index -1, which stands for the
last one. -/
def upTo (irs : List Nat) : Option Nat → List Nat
  | none => irs
  | some index => irs.take (index + 1)

def insertPhi (st : State) (bb size : Nat) : State where
  irs := Function.update st.irs bb (Arrays.insert (st.irs bb) st.nextId 0)
  ir := Function.update st.ir st.nextId ⟨.phi, size, none, []⟩
  nextId := st.nextId + 1

def addOperand (st : State) (phi parentbb parentir : Nat) : State :=
  let node := st.ir phi
  { st with ir := Function.update st.ir phi
              { node with phivalue := Pmap.add node.phivalue parentbb parentir } }

/-- The loop over the predecessors, with the search in one of them. -/
def addOperands (find : State → Nat → Except Failure (State × Nat × Nat)) (phi : Nat) :
    List Nat → State → Except Failure State
  | [], st => .ok st
  | prev :: prevs, st =>
    match find st prev with
    | .error failure => .error failure
    | .ok (st, parentbb, parentir) =>
      addOperands find phi prevs (addOperand st phi parentbb parentir)

def findCall (prevs : Nat → List Nat) :
    Nat → State → Nat → Option Nat → Nat → Except Failure (State × Nat × Nat)
  | 0, _, _, _, _ => .error .fuel
  | fuel + 1, st, bb, index, lfr =>
    match scan st.ir (upTo (st.irs bb) index).reverse with
    | .found here =>
      let call := { st.ir here with size := (st.ir lfr).size }
      .ok ({ st with ir := Function.update st.ir here call }, bb, here)
    | .corrupted => .error .fatal
    | .top =>
      match prevs bb with
      | [prev] => findCall prevs fuel st prev none lfr
      | several =>
        let phi := st.nextId
        match addOperands (fun st prev => findCall prevs fuel st prev none phi) phi several
            (insertPhi st bb (st.ir lfr).size) with
        | .error failure => .error failure
        | .ok st => .ok (st, bb, phi)

def wireUpIr (prevs : Nat → List Nat) (fuel : Nat) (st : State) (bb index lfr : Nat) :
    Except Failure State :=
  match findCall prevs fuel st bb (some index) lfr with
  | .error failure => .error failure
  | .ok (st, _, callir) =>
    let wired := { st.ir lfr with left := some callir, opcode := .nop }
    .ok { st with ir := Function.update st.ir lfr wired }

/-- The loop over the instructions of a block, which may grow at its head. -/
def wireUpBlock (prevs : Nat → List Nat) (bb : Nat) : Nat → Nat → State → Except Failure State
  | 0, _, _ => .error .fuel
  | fuel + 1, j, st =>
    match (st.irs bb)[j]? with
    | none => .ok st
    | some here =>
      if (st.ir here).opcode = .getret then
        match wireUpIr prevs fuel st bb j here with
        | .error failure => .error failure
        | .ok st => wireUpBlock prevs bb fuel (j + 1) st
      else wireUpBlock prevs bb fuel (j + 1) st

def wireUpReturnValues (prevs : Nat → List Nat) (fuel : Nat) :
    List Nat → State → Except Failure State
  | [], st => .ok st
  | bb :: blocks, st =>
    match wireUpBlock prevs bb fuel 0 st with
    | .error failure => .error failure
    | .ok st => wireUpReturnValues prevs fuel blocks st

/-! ## Searches -/

def Preserving (st : State) (executed : List Nat) : Prop :=
  ∀ ir ∈ executed, (st.ir ir).opcode = .stackadjust ∨ (st.ir ir).opcode = .getret ∨
    (st.ir ir).opcode = .jump

instance (st : State) (executed : List Nat) : Decidable (Preserving st executed) :=
  inferInstanceAs (Decidable (∀ ir ∈ executed, _))

/-- A search that looks at `executed` in the block `bb` comes to the head of the block
`x`. -/
inductive Reaches (prevs : Nat → List Nat) (st : State) : Nat → List Nat → Nat → Prop where
  | here {bb : Nat} {executed : List Nat} (preserving : Preserving st executed) :
      Reaches prevs st bb executed bb
  | up {bb prev x : Nat} {executed : List Nat} (preserving : Preserving st executed)
      (edge : prev ∈ prevs bb) (rest : Reaches prevs st prev (st.irs prev) x) :
      Reaches prevs st bb executed x

/-! ## Executions -/

def lastCallIn (st : State) (executed : List Nat) : Option Nat :=
  executed.reverse.find? fun ir => (st.ir ir).opcode = .call

/-- The last call before a point, and how many blocks had been left when it was
executed.  The point lies in a block after the instructions `executed`; `path` are
the blocks executed before, the last one first. -/
def lastCall (st : State) : List Nat → List Nat → Option (Nat × Nat)
  | executed, [] => (lastCallIn st executed).map fun call => (0, call)
  | executed, bb :: path =>
    match lastCallIn st executed with
    | some call => some (path.length + 1, call)
    | none => lastCall st (st.irs bb) path

/-- The call whose result a node has at a point.  A phi takes the operand of the
block that was left when its own block was entered. -/
def result (st : State) : List Nat → List Nat → Nat → Option (Nat × Nat)
  | executed, [], node =>
    if node ∈ executed ∧ (st.ir node).opcode = .call then some (0, node) else none
  | executed, bb :: path, node =>
    if node ∈ executed then
      match (st.ir node).opcode with
      | .call => some (path.length + 1, node)
      | .phi => (Pmap.findleft (st.ir node).phivalue bb).bind (result st (st.irs bb) path)
      | _ => none
    else result st (st.irs bb) path node

/-- Each block of the path is a predecessor of the one executed after it. -/
def IsPath (prevs : Nat → List Nat) : Nat → List Nat → Prop
  | _, [] => True
  | bb, prev :: path => prev ∈ prevs bb ∧ IsPath prevs prev path

/-- What a search from an `lfr` in the block leaves: every phi it inserts has one
operand for each predecessor of its block, and on every path with a call the
wired value is the result of the last one. -/
structure WiredUp (prevs : Nat → List Nat) (st st' : State) (bb lfr : Nat) : Prop where
  keyed : ∀ x, ∀ phi ∈ st'.irs x, phi ∉ st.irs x →
    ((st'.ir phi).phivalue.map Prod.fst).Perm (prevs x)
  wired : ∃ callir, (st'.ir lfr).left = some callir ∧ ∀ path, IsPath prevs bb path →
    ∀ event, lastCall st' ((st'.irs bb).takeWhile (· ≠ lfr)) path = some event →
      result st' ((st'.irs bb).takeWhile (· ≠ lfr)) path callir = some event

/-- Where the search puts a phi, no predecessor is a block without a call that has one
predecessor itself. -/
def DirectCalls (prevs : Nat → List Nat) (st : State) (bb index : Nat) : Prop :=
  ∀ x, Reaches prevs st bb (upTo (st.irs bb) (some index)) x → (prevs x).length ≠ 1 →
    ∀ prev ∈ prevs x, Preserving st (st.irs prev) → (prevs prev).length ≠ 1

end AckFormal.Mcg.ReturnValues
