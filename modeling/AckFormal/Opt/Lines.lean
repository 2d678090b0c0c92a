import Mathlib.Data.List.Basic

/-!
# The instructions of EM

The mnemonics of `h/em_table` and the column of that table that says whether control goes on
behind an instruction.
-/

namespace AckFormal.Opt

inductive Mnem where
  | op_aar | op_adf | op_adi | op_adp | op_ads | op_adu | op_and | op_asp | op_ass
  | op_beq | op_bge | op_bgt | op_ble | op_blm | op_bls | op_blt | op_bne | op_bra
  | op_cai | op_cal | op_cff | op_cfi | op_cfu | op_cif | op_cii | op_ciu | op_cmf
  | op_cmi | op_cmp | op_cms | op_cmu | op_com | op_csa | op_csb | op_cuf | op_cui
  | op_cuu | op_dch | op_dec | op_dee | op_del | op_dup | op_dus | op_dvf | op_dvi
  | op_dvu | op_exg | op_fef | op_fif | op_fil | op_gto | op_inc | op_ine | op_inl
  | op_inn | op_ior | op_lae | op_lal | op_lar | op_ldc | op_lde | op_ldf | op_ldl
  | op_lfr | op_lil | op_lim | op_lin | op_lni | op_loc | op_loe | op_lof | op_loi
  | op_lol | op_lor | op_los | op_lpb | op_lpi | op_lxa | op_lxl | op_mlf | op_mli
  | op_mlu | op_mon | op_ngf | op_ngi | op_nop | op_rck | op_ret | op_rmi | op_rmu
  | op_rol | op_ror | op_rtt | op_sar | op_sbf | op_sbi | op_sbs | op_sbu | op_sde
  | op_sdf | op_sdl | op_set | op_sig | op_sil | op_sim | op_sli | op_slu | op_sri
  | op_sru | op_ste | op_stf | op_sti | op_stl | op_str | op_sts | op_teq | op_tge
  | op_tgt | op_tle | op_tlt | op_tne | op_trp | op_xor | op_zeq | op_zer | op_zge
  | op_zgt | op_zle | op_zlt | op_zne | op_zre | op_zrf | op_zrl
  deriving DecidableEq

/-- Flow information: the bits `EM_FLO` of `em_flag`. -/
inductive Flow where
  | no | c | p | t
  deriving DecidableEq

/-- The second character of the type in `em_table`. -/
def em_flo : Mnem → Flow
  | .op_beq | .op_bge | .op_bgt | .op_ble | .op_blt | .op_bne | .op_zeq | .op_zge | .op_zgt
  | .op_zle | .op_zlt | .op_zne => .c
  | .op_cai | .op_cal | .op_trp => .p
  | .op_bra | .op_csa | .op_csb | .op_gto | .op_ret | .op_rtt => .t
  | _ => .no

/-- `l_instr` of a line: an instruction, the label `op_lab` or a pseudo. -/
inductive Instr where
  | op (mnem : Mnem)
  | op_lab
  | ps (pseudo : Nat)
  deriving DecidableEq

def Instr.terminates : Instr → Bool
  | .op mnem => em_flo mnem == .t
  | _ => false

/-!
## The instructions and labels of a procedure

The data of `line.h` and `proinf.h`. A label and a line are pointers, here numbers; what they
point to is kept in two memories. The hash table of labels is the list in which its chains
are walked, and the linked list of instructions is the list of its pointers.
-/

abbrev NumP := Nat

abbrev LineP := Nat

/-- `l_optyp` with the member of `l_a` that belongs to it. Operands with a symbol and lists
of operands are not told apart. -/
inductive Operand where
  | OPNO
  | OPSHORT (la_short : Int)
  | OPOFFSET (la_offset : Int)
  | OPNUMLAB (la_np : NumP)
  | OPMINI (mini : Int)
  | other
  deriving DecidableEq

structure Line where
  l_instr : Instr
  l_a : Operand
  deriving DecidableEq

structure NumFlags where
  NUMDATA : Bool
  NUMREACH : Bool
  NUMKNOWN : Bool
  NUMMARK : Bool
  NUMSCAN : Bool
  NUMSET : Bool
  NUMCOND : Bool
  NUMFALLTHROUGH : Bool

structure Num where
  n_jumps : Nat
  n_repl : NumP
  n_flags : NumFlags
  n_size : Int
  n_line : Option LineP

structure Proinf where
  numhash : List NumP
  num : NumP → Num
  instrs : List LineP
  line : LineP → Line

namespace Proinf

def setNum (p : Proinf) (np : NumP) (change : Num → Num) : Proinf :=
  { p with num := Function.update p.num np (change (p.num np)) }

@[simp] theorem setNum_numhash (p : Proinf) (np : NumP) (change : Num → Num) :
    (p.setNum np change).numhash = p.numhash := rfl

@[simp] theorem setNum_instrs (p : Proinf) (np : NumP) (change : Num → Num) :
    (p.setNum np change).instrs = p.instrs := rfl

@[simp] theorem setNum_line (p : Proinf) (np : NumP) (change : Num → Num) :
    (p.setNum np change).line = p.line := rfl

@[simp] theorem setNum_same (p : Proinf) (np : NumP) (change : Num → Num) :
    (p.setNum np change).num np = change (p.num np) := Function.update_self ..

theorem setNum_of_ne (p : Proinf) {np other : NumP} (change : Num → Num)
    (different : other ≠ np) : (p.setNum np change).num other = p.num other :=
  Function.update_of_ne different ..

/-- The assertion of `relabel`: the line of a label, if there is one, is that of `op_lab`. -/
def defines (p : Proinf) (np : NumP) : Bool :=
  match (p.num np).n_line with
  | none => true
  | some lp => p.line lp == ⟨.op_lab, .OPNUMLAB np⟩

end Proinf

end AckFormal.Opt
