import Mathlib.Tactic.Common

/-!
# The three passes of the assembler

The layout of a program by `as/comm4.c`, `comm6.c` and `comm7.c` with the branch
instructions of `i86/as/mach5.c`.  The same statements are read in every pass: the
first one takes every gap and every branch as large as it can be, the second one
decides which branches are short and records that in the bit table, and the third
one writes the code.  A program is made of code of a fixed size, `.align`, `.space`,
label definitions, section switches and branches to labels.

`ADDR_T` is an unsigned short, so the location counter and all sizes are kept
modulo 65536.  Every message stops the assembler.
-/

namespace AckFormal.As.Passes

inductive Pass where
  | pass1
  | pass2
  | pass3
  deriving DecidableEq

inductive Stop where
  | noSections
  | multipleDeclared
  | illegalAlignment
  | tooBig
  | bitTableOverflow
  | outsideBitTable
  deriving DecidableEq

abbrev Sec := Fin 64

structure Sect where
  size : Nat := 0
  zero : Nat := 0
  lign : Int := 2
  gain : Nat := 0

/-- A label: the section of its type (`none` for `S_UND`) and its value. -/
structure Item where
  typ : Option Sec := none
  valu : Int := 0

inductive Stmt where
  | sect (s : Sec)
  | code (bytes : Nat)
  | align (bytes : Int)
  | space (bytes : Int)
  | label (ip : Nat)
  | branch (opc : Nat) (ip : Nat)

structure State where
  sects : Sec → Sect := fun _ => {}
  items : Nat → Item := fun _ => {}
  /-- `DOTSCT` and `DOTTYP`. -/
  dotsct : Option Sec := none
  dotval : Nat := 0
  /-- The number of decisions so far: `bitindex * BITCHUNK + nbits`. -/
  decisions : Nat := 0
  /-- `pbittab`; its chunks come from `calloc`. -/
  bits : Nat → Bool := fun _ => false

/-- A branch as it was written: whether it got one byte, and its displacement. -/
structure Jump where
  short : Bool
  disp : Int
  deriving DecidableEq

/-- What one statement did: the calls of `emit1`, the gap it left, the branch it
wrote, and whether the conditions of the assertions in it held. -/
structure Trace where
  emitted : Nat := 0
  gap : Int := 0
  jump : Option Jump := none
  asserted : Bool := true
  deriving DecidableEq

def addrT (v : Int) : Nat := (v % 65536).toNat

def bitLimit : Nat := 128 * (8 * 2048)

def fitb (x : Int) : Bool := 0 ≤ x + 0x80 && x + 0x80 ≤ 0xff

def State.setSect (st : State) (s : Sec) (sp : Sect) : State :=
  { st with sects := Function.update st.sects s sp }

def State.setItem (st : State) (ip : Nat) (item : Item) : State :=
  { st with items := Function.update st.items ip item }

def load (item : Item) : Int :=
  match item.typ with
  | none => 0
  | some _ => item.valu

/-- The section that is current is given its size, and `newtyp` becomes current. -/
def switchsect (newtyp : Option Sec) (st : State) : State :=
  let st := match st.dotsct with
    | none => st
    | some s => st.setSect s { st.sects s with size := st.dotval }
  match newtyp with
  | none => { st with dotsct := none }
  | some s => { st with dotsct := some s, dotval := (st.sects s).size }

def emit : Nat → State → Except Stop State
  | 0, st => .ok st
  | n + 1, st =>
    match st.dotsct with
    | none => .error .noSections
    | some s =>
      emit n { st.setSect s { st.sects s with zero := 0 } with
        dotval := addrT (st.dotval + 1) }

/-- The decision about one branch: the new state, the answer and whether the
assertion of the third pass held. -/
def small (pass : Pass) (bflag fitsmall : Bool) (gain : Int) (st : State) :
    Except Stop (State × Bool × Bool) :=
  match st.dotsct with
  | none => .error .noSections
  | some s =>
    if bflag then .ok (st, false, true)
    else if st.decisions = bitLimit then
      if pass = .pass1 then .error .bitTableOverflow
      else .ok ({ st with decisions := st.decisions + 1 }, false, true)
    else if bitLimit < st.decisions then .error .outsideBitTable
    else
      let bit := st.decisions
      let st := { st with decisions := st.decisions + 1 }
      match pass with
      | .pass1 => .ok (st, false, true)
      | .pass2 =>
        if fitsmall then
          .ok ({ st.setSect s { st.sects s with gain := addrT ((st.sects s).gain + gain) } with
            bits := Function.update st.bits bit true }, true, true)
        else .ok (st, false, true)
      | .pass3 => .ok (st, st.bits bit, fitsmall || !st.bits bit)

def fit (pass : Pass) (x : Bool) : Except Stop Unit :=
  if x = false ∧ pass = .pass3 then .error .tooBig else .ok ()

/-- The instructions that have no long form: `loop` and `jcxz`. -/
def isLoop (opc : Nat) : Bool := opc &&& 0o370 == 0o340

/-- The displacement and whether it is taken as small. -/
def reach (pass : Pass) (opc ip : Nat) (st : State) : Int × Bool :=
  let saving : Int := if opc = 0o353 then 1 else 3
  let exp := st.items ip
  let dist := load exp - (st.dotval + 2)
  let dist := match st.dotsct with
    | none => dist
    | some s => if pass = .pass2 ∧ dist > 0 then dist - (st.sects s).gain else dist
  let sm := if dist > 0 then fitb (dist - saving) else fitb dist
  (dist, if exp.typ ≠ st.dotsct then false else sm)

def branch (pass : Pass) (bflag : Bool) (opc ip : Nat) (st : State) :
    Except Stop (State × Trace) := do
  let (dist, sm) := reach pass opc ip st
  if isLoop opc then
    fit pass sm
    let st ← emit 2 st
    .ok (st, { emitted := 2, jump := some ⟨true, dist⟩ })
  else
    let (st, sm, asserted) ← small pass bflag sm (if opc = 0o353 then 1 else 3) st
    if sm then
      let st ← emit 2 st
      .ok (st, { emitted := 2, jump := some ⟨true, dist⟩, asserted })
    else if opc = 0o353 then
      let st ← emit 3 st
      .ok (st, { emitted := 3, jump := some ⟨false, dist - 1⟩, asserted })
    else
      let st ← emit 5 st
      .ok (st, { emitted := 5, jump := some ⟨false, dist - 3⟩, asserted })

def alignBytes (bytes : Int) : Int := if bytes = 0 then 2 else bytes

/-- The gap before the next multiple; the first pass takes the largest one. -/
def alignGap (pass : Pass) (dotval : Nat) (bytes : Int) : Int :=
  if pass = .pass1 then bytes - 1
  else
    let gap := Int.tmod dotval bytes
    if gap ≠ 0 then bytes - gap else gap

def alignSect (lign bytes : Int) : Except Stop Int :=
  if lign.tmod bytes ≠ 0 then
    if bytes.tmod lign ≠ 0 then .error .illegalAlignment else .ok (addrT bytes)
  else .ok lign

def align (pass : Pass) (bytes : Int) (st : State) : Except Stop (State × Trace) :=
  match st.dotsct with
  | none => .error .noSections
  | some s => do
      let bytes := alignBytes bytes
      let lign ← alignSect (st.sects s).lign bytes
      let gap := alignGap pass st.dotval bytes
      let gain := if pass = .pass2 then addrT ((st.sects s).gain + (bytes - 1 - gap))
        else (st.sects s).gain
      .ok ({ st.setSect s { st.sects s with
          lign := lign, gain := gain, zero := addrT ((st.sects s).zero + gap) } with
        dotval := addrT (st.dotval + gap) }, { gap })

def space (bytes : Int) (st : State) : Except Stop (State × Trace) :=
  match st.dotsct with
  | none => .error .noSections
  | some s =>
    .ok ({ st.setSect s { st.sects s with zero := addrT ((st.sects s).zero + bytes) } with
      dotval := addrT (st.dotval + bytes) }, { gap := bytes })

def newident (pass : Pass) (ip : Nat) (st : State) : Except Stop Unit :=
  if pass = .pass1 ∧ (st.items ip).typ ≠ none then .error .multipleDeclared else .ok ()

/-- `newlabel`; the assertions are the one about the gain and the one in `store`. -/
def newlabel (pass : Pass) (ip : Nat) (st : State) : Except Stop (State × Trace) :=
  match st.dotsct with
  | none => .error .noSections
  | some s =>
    let oldval := (st.items ip).valu
    let asserted := (pass ≠ .pass3 || oldval = st.dotval) &&
      (pass ≠ .pass2 || (addrT oldval : Int) - st.dotval = (st.sects s).gain)
    .ok (st.setItem ip ⟨some s, st.dotval⟩, { asserted })

def step (pass : Pass) (bflag : Bool) (stmt : Stmt) (st : State) : Except Stop (State × Trace) :=
  match stmt with
  | .sect s => .ok (switchsect (some s) st, {})
  | .code bytes => do
      let st ← emit bytes st
      .ok (st, { emitted := bytes })
  | .align bytes => align pass bytes st
  | .space bytes => space bytes st
  | .label ip => do
      newident pass ip st
      newlabel pass ip st
  | .branch opc ip => branch pass bflag opc ip st

def parse (pass : Pass) (bflag : Bool) : List Stmt → State → Except Stop (State × List Trace)
  | [], st => .ok (st, [])
  | stmt :: rest, st => do
      let (st, trace) ← step pass bflag stmt st
      let (st, traces) ← parse pass bflag rest st
      .ok (st, trace :: traces)

/-- The sizes, the gains and the position in the bit table are reset before the
second and the third pass. -/
def restart (st : State) : State :=
  { switchsect none st with
    sects := fun s => { (switchsect none st).sects s with size := 0, zero := 0, gain := 0 }
    decisions := 0 }

structure Result where
  final : State
  traces : List Trace

def passResult (pass : Pass) (bflag : Bool) (program : List Stmt) (st : State) :
    Except Stop Result := do
  let (final, traces) ← parse pass bflag program st
  .ok ⟨final, traces⟩

structure Assembled where
  pass1 : Result
  pass2 : Result
  pass3 : Result

def assemble (bflag : Bool) (program : List Stmt) : Except Stop Assembled := do
  let pass1 ← passResult .pass1 bflag program {}
  let pass2 ← passResult .pass2 bflag program (restart pass1.final)
  let pass3 ← passResult .pass3 bflag program (restart pass2.final)
  .ok ⟨pass1, pass2, pass3⟩

end AckFormal.As.Passes
