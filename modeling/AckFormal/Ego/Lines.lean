import Mathlib.Data.Finset.Basic

/-!
# Lines of EM code in the global optimizer

A line has an instruction or a pseudo instruction and one operand, which may be
a list of arguments.  Procedures, objects and labels are referred to by the
identifying numbers of the tables.
-/

namespace AckFormal.Ego.Lines

/-- The instruction byte of a line: a mnemonic of the EM table, a label, or a
pseudo instruction. -/
inductive Instr where
  | opAar | opAdf | opAdi | opAdp | opAds | opAdu | opAnd | opAsp | opAss | opBeq | opBge | opBgt
  | opBle | opBlm | opBls | opBlt | opBne | opBra | opCai | opCal | opCff | opCfi | opCfu | opCif
  | opCii | opCiu | opCmf | opCmi | opCmp | opCms | opCmu | opCom | opCsa | opCsb | opCuf | opCui
  | opCuu | opDch | opDec | opDee | opDel | opDup | opDus | opDvf | opDvi | opDvu | opExg | opFef
  | opFif | opFil | opGto | opInc | opIne | opInl | opInn | opIor | opLae | opLal | opLar | opLdc
  | opLde | opLdf | opLdl | opLfr | opLil | opLim | opLin | opLni | opLoc | opLoe | opLof | opLoi
  | opLol | opLor | opLos | opLpb | opLpi | opLxa | opLxl | opMlf | opMli | opMlu | opMon | opNgf
  | opNgi | opNop | opRck | opRet | opRmi | opRmu | opRol | opRor | opRtt | opSar | opSbf | opSbi
  | opSbs | opSbu | opSde | opSdf | opSdl | opSet | opSig | opSil | opSim | opSli | opSlu | opSri
  | opSru | opSte | opStf | opSti | opStl | opStr | opSts | opTeq | opTge | opTgt | opTle | opTlt
  | opTne | opTrp | opXor | opZeq | opZer | opZge | opZgt | opZle | opZlt | opZne | opZre | opZrf
  | opZrl | opLab | psBss | psCon | psEnd | psExa | psExc | psExp | psHol | psIna | psInp | psMes
  | psPro | psRom | psSym
  deriving DecidableEq

/-- One argument of a list; the operand types of `struct arg`. -/
inductive Arg where
  | argOff (value : Int)
  | argInstrlab (label : Nat)
  | argObject (object : Nat)
  | argProc (proc : Nat)
  | argString (bytes : List UInt8)
  | argIcn (size : Int) (text : List UInt8)
  | argUcn (size : Int) (text : List UInt8)
  | argFcn (size : Int) (text : List UInt8)

inductive Operand where
  | opNo
  | opShort (value : Int)
  | opOffset (value : Int)
  | opInstrlab (label : Nat)
  | opObject (object : Nat)
  | opProc (proc : Nat)
  | opList (args : List Arg)

structure Line where
  instr : Instr
  operand : Operand

end AckFormal.Ego.Lines
