import AckFormal.Ego.Lines
import AckFormal.Lib.Settle

/-!
# Interprocedural analysis

What `cf/cf.c` records about the procedures of a program: which procedures one
calls, which objects it changes, and whether it loads or stores through a
pointer.  First every body is read (`doread_line`, `interproc_analysis`), then the
procedures that are called indirectly are added (`indir_calls`), and at the end
the information is closed over the calls (`add_info`, `trans_clos`).

The basic blocks and the loops are those of `getbblocks` and `loop_detection`; of
a block only its lines and the number of loops it is in are read here.
-/

namespace AckFormal.Ego.Cf

open Ego.Lines Lib.Settle

/-- The first argument of a `mes` that says that a `gto` may come here. -/
def msGto : Int := 11

structure Block where
  loops : Nat
  lines : List Line

/-- What `getbblocks` delivers: `LDATA` or `LTEXT`. -/
inductive TextUnit where
  | data (lines : List Line)
  | text (proc : Nat) (blocks : List Block)

def TextUnit.body (p : Nat) : TextUnit → List Line
  | .data _ => []
  | .text q blocks => if q = p then blocks.flatMap Block.lines else []

def TextUnit.lines : TextUnit → List Line
  | .data lines => lines
  | .text _ blocks => blocks.flatMap Block.lines

def TextUnit.proc : TextUnit → Option Nat
  | .data _ => none
  | .text p _ => some p

def lineProcs (l : Line) : List Nat :=
  match l.operand with
  | .opProc q => [q]
  | .opList args => args.filterMap fun
      | .argProc q => some q
      | _ => none
  | _ => []

/-- A program: the procedure table, in which the procedures are numbered from 1, and
the units of the EM text, at most one for each procedure. -/
structure Program where
  table : List Nat
  units : List TextUnit
  ids : ∀ p, p ∈ table ↔ 1 ≤ p ∧ p ≤ table.length
  known : ∀ u ∈ units, (∀ p ∈ u.proc, p ∈ table) ∧ ∀ l ∈ u.lines, ∀ q ∈ lineProcs l, q ∈ table
  once : (units.filterMap TextUnit.proc).Nodup

/-- The flags of `p_flags1` that are set here, `p_change` and `p_use`. -/
structure Info where
  calUnknown : Bool := false
  environ : Bool := false
  lpi : Bool := false
  calInLoop : Bool := false
  gto : Bool := false
  cExt : Finset Nat := ∅
  cIndir : Bool := false
  uIndir : Bool := false

/-- `p_calling` and the rest of the table for each procedure, `lpi_set` and `cai_set`. -/
structure Tables where
  calling : Nat → Finset Nat := fun _ => ∅
  info : Nat → Info := fun _ => {}
  lpiSet : Finset Nat := ∅
  caiSet : Finset Nat := ∅

def Tables.call (t : Tables) (p q : Nat) : Tables :=
  { t with calling := Function.update t.calling p (insert q (t.calling p)) }

def Tables.note (t : Tables) (p : Nat) (f : Info → Info) : Tables :=
  { t with info := Function.update t.info p (f (t.info p)) }

def Tables.address (t : Tables) (q : Nat) : Tables :=
  { t.note q fun i => { i with lpi := true } with lpiSet := insert q t.lpiSet }

def addresses : List Arg → Tables → Tables
  | [], t => t
  | .argProc q :: args, t => addresses args (t.address q)
  | _ :: args, t => addresses args t

def doreadLine (t : Tables) (lnp : Line) : Tables :=
  match lnp.operand with
  | .opList args => if lnp.instr ≠ .psMes then addresses args t else t
  | _ => t

/-- One turn of the switch of `interproc_analysis`. -/
def analyseLine (p : Nat) (inloop : Bool) (t : Tables) (lnp : Line) : Tables :=
  match lnp.instr with
  | .opCal =>
    match lnp.operand with
    | .opProc q =>
      let t := t.call p q
      if inloop then t.note q fun i => { i with calInLoop := true } else t
    | _ => t
  | .opCai => { t with caiSet := insert p t.caiSet }
  | .opLpi =>
    match lnp.operand with
    | .opProc q => t.address q
    | _ => t
  | .opSte | .opSde | .opIne | .opDee | .opZre =>
    match lnp.operand with
    | .opObject o => t.note p fun i => { i with cExt := insert o i.cExt }
    | _ => t
  | .opLil | .opLof | .opLoi | .opLos | .opLar => t.note p fun i => { i with uIndir := true }
  | .opSil | .opStf | .opSti | .opSts | .opSar => t.note p fun i => { i with cIndir := true }
  | .opBlm | .opBls => t.note p fun i => { i with uIndir := true, cIndir := true }
  | .opLxl | .opLxa => t.note p fun i => { i with environ := true }
  | .opLor | .opStr =>
    match lnp.operand with
    | .opShort 0 => t.note p fun i => { i with environ := true }
    | _ => t
  | .psMes =>
    match lnp.operand with
    | .opList (.argOff v :: _) =>
      if v = msGto then t.note p fun i => { i with gto := true } else t
    | _ => t
  | _ => t

/-- The sets of `p` are made anew before its lines are looked at. -/
def freshSets (t : Tables) (p : Nat) : Tables :=
  { t.note p fun i => { i with cExt := ∅, cIndir := false, uIndir := false } with
    calling := Function.update t.calling p ∅ }

def analyseBlock (p : Nat) (t : Tables) (b : Block) : Tables :=
  b.lines.foldl (analyseLine p (0 < b.loops)) t

def interprocAnalysis (p : Nat) (blocks : List Block) (t : Tables) : Tables :=
  blocks.foldl (analyseBlock p) (freshSets t p)

def readUnit (t : Tables) (u : TextUnit) : Tables :=
  let t := u.lines.foldl doreadLine t
  match u with
  | .data _ => t
  | .text p blocks => interprocAnalysis p blocks t

/-- Every procedure that does a `cai` calls every procedure whose address is taken. -/
def indirCalls (t : Tables) : Tables :=
  { t with
    calling := fun p => if p ∈ t.caiSet then t.lpiSet ∪ t.calling p else t.calling p }

def bodyKnown (prog : Program) (p : Nat) : Bool :=
  decide (p ∈ prog.units.filterMap TextUnit.proc)

inductive Fact where
  | unknown
  | changes (obj : Nat)
  | changeIndir
  | useIndir
  | environ

def Info.has (i : Info) : Fact → Bool
  | .unknown => i.calUnknown
  | .changes o => decide (o ∈ i.cExt)
  | .changeIndir => i.cIndir
  | .useIndir => i.uIndir
  | .environ => i.environ

def Info.learn (i : Info) : Fact → Info
  | .unknown => { i with calUnknown := true }
  | .changes o => { i with cExt := insert o i.cExt }
  | .changeIndir => { i with cIndir := true }
  | .useIndir => { i with uIndir := true }
  | .environ => { i with environ := true }

abbrev Infos := Nat → Info

def passFlag (flag : Fact) (q p : Nat) (s : Infos) : Infos × Bool :=
  if (s q).has flag && !(s p).has flag then
    (Function.update s p ((s p).learn flag), true)
  else
    (s, false)

/-- What is called by a procedure that is called in a loop is called in a loop. -/
def passLoop (q p : Nat) (s : Infos) : Infos × Bool :=
  if (s p).calInLoop && !(s q).calInLoop then
    (Function.update s q { s q with calInLoop := true }, true)
  else
    (s, false)

def passExt (q p : Nat) (s : Infos) : Infos × Bool :=
  if ¬ (s q).cExt ⊆ (s p).cExt then
    (Function.update s p { s p with cExt := (s q).cExt ∪ (s p).cExt }, true)
  else
    (s, false)

/-- The tests of `add_info` for a procedure with a body, one after the other. -/
def passes (q p : Nat) : List (Infos → Infos × Bool) :=
  [passFlag .unknown q p, passLoop q p, passExt q p, passFlag .changeIndir q p,
    passFlag .useIndir q p, passFlag .environ q p]

/-- What follows for `p` from the fact that it calls `q`, and whether anything changed. -/
def addInfo (prog : Program) (q p : Nat) (s : Infos) : Infos × Bool :=
  if bodyKnown prog q then
    sweep (passes q p) s false
  else if ¬ (s p).calUnknown then
    (Function.update s p { s p with calUnknown := true }, true)
  else
    (s, false)

/-- The calls in the order of a sweep of `trans_clos`: `Cfirst`, `Cnext` go through
a set upwards. -/
def edges (prog : Program) (calling : Nat → Finset Nat) : List (Nat × Nat) :=
  prog.table.flatMap fun p =>
    if bodyKnown prog p then
      ((List.range' 1 prog.table.length).filter (· ∈ calling p)).map fun q => (q, p)
    else
      []

def transClos (prog : Program) (fuel : Nat) (t : Tables) : Option Infos :=
  settle ((edges prog t.calling).map fun e => addInfo prog e.1 e.2) fuel t.info

/-- The phase: what `putptable` is given for each procedure. -/
def cf (fuel : Nat) (prog : Program) : Option Infos :=
  transClos prog fuel (indirCalls (prog.units.foldl readUnit {}))

/-! ### What a program does -/

def Program.body (prog : Program) (p : Nat) : List Line :=
  prog.units.flatMap (TextUnit.body p)

def AddressTaken (units : List TextUnit) (q : Nat) : Prop :=
  (∃ p, ⟨.opLpi, .opProc q⟩ ∈ units.flatMap (TextUnit.body p)) ∨
    ∃ l ∈ units.flatMap TextUnit.lines, l.instr ≠ .psMes ∧
      ∃ args, l.operand = .opList args ∧ .argProc q ∈ args

/-- `p` calls `q`: it has a `cal` of `q`, or a `cai` where `q` has its address taken. -/
def Calls (prog : Program) (p q : Nat) : Prop :=
  ⟨.opCal, .opProc q⟩ ∈ prog.body p ∨
    (∃ l ∈ prog.body p, l.instr = .opCai) ∧ AddressTaken prog.units q

/-- The procedures that `p` can transitively call, `p` itself included. -/
def Reaches (prog : Program) : Nat → Nat → Prop :=
  Relation.ReflTransGen (Calls prog)

/-! ### How the later phases see an instruction -/

def doesImplDef : Instr → Bool
  | .opCal | .opCai | .opSil | .opStf | .opSti | .opSts | .opSdf | .opSar | .opBlm | .opBls
  | .opZrf => true
  | _ => false

def isIndirUse : Instr → Bool
  | .opBlm | .opBls | .opCai | .opCal | .opLar | .opLdf | .opLil | .opLof | .opLoi | .opLos
  | .opMon => true
  | _ => false

/-- The instruction is a call; what it does is what the called procedure does. -/
def isCall : Instr → Bool
  | .opCal | .opCai => true
  | _ => false

end AckFormal.Ego.Cf
