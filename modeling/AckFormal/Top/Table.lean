import Mathlib.Data.List.Basic

/-!
# The tables of the target optimizer

The generated tables of `gen.c` and the parameters of `gen.h`, and the part of `top.c` that works
on one instruction: recognising its opcode and operands, matching them against the
templates of a pattern and building the text of a new instruction. Strings are the characters
before the NUL.
-/

namespace AckFormal.Top

structure Text where
  chars : List Char
  byte : ∀ c ∈ chars, 0 < c.toNat ∧ c.toNat < 256

/-- `varno` is `none` for -1 and zero for an operand without a variable. -/
structure Template where
  lctxt : List Char
  varno : Option Nat
  rctxt : List Char

structure InstrDescr where
  opcode : Option (List Char)
  templates : List Template

/-- `patlen` and `replen` are the lengths of the two lists. -/
structure PatternDescr where
  pat : List InstrDescr
  repl : List InstrDescr

structure Variable where
  instantiated : Bool
  value : List Char

/-- The values of the variables and of `ANY`, which the expression of a pattern reads and may
assign. -/
structure Values where
  var : Nat → List Char
  any : List Char

def labdef : List Char := ['l', 'a', 'b', 'd', 'e', 'f']

/-- What a description of a target gives: the patterns with the hash lists of their numbers,
the checks of variables and patterns, which are expressions of the description, and the
parameters. An expression has no value where it reads or writes what is not there, as `REST` behind
the last instruction. The arrays have room for a character of a line and for `labdef`. -/
structure Gen where
  patterns : List PatternDescr
  hashtab : Nat → List Nat
  hashany : List Nat
  hashtab_lt : ∀ hash, ∀ number ∈ hashtab hash, number < patterns.length
  hashany_lt : ∀ number ∈ hashany, number < patterns.length
  tokChk : Nat → List Char → Option (Bool × List Char)
  checkConstraint : Nat → Values → Option (List Char) → Option (Bool × Values)
  opSeparator : Char
  labelTerminator : Char
  labelStarter : Char
  opcTerminator : Char
  parenOpen : List Char
  parenClose : List Char
  maxOpcLen : Nat
  maxOpLen : Nat
  maxOp : Nat
  maxLineLen : Nat
  maxVarLen : Nat
  line_pos : 0 < maxLineLen
  labdef_fits : labdef.length ≤ maxOpcLen

def Gen.minWindowSize (gen : Gen) : Nat :=
  (gen.patterns.map fun p => p.pat.length).foldl max 0 + 3

inductive State where
  | onlyOpc
  | junk
  | done
deriving DecidableEq

abbrev Ptr := Nat

/-- What a new instruction happens to have behind the strings that are put into it: the last
byte of the opcode's array, unless it is NUL, and whether white space and a newline follow the
NUL of the line. -/
structure Stale where
  opc : Option Char
  newline : Bool

/-- `restLine` is the text that `rest_line` points at, and `none` behind the NUL of the
line. -/
structure Instruction where
  fw : Option Ptr
  bw : Option Ptr
  line : List Char
  restLine : Option (List Char)
  opc : List Char
  op : List (List Char)
  state : State
  stale : Stale

def isWhite (c : Char) : Bool := c == ' ' || c == '\t'

def isLetter (c : Char) : Bool := ('a' ≤ c && c ≤ 'z') || ('A' ≤ c && c ≤ 'Z')

def wellShaped (opc : List Char) : Bool :=
  match opc with
  | [] => false
  | c :: _ => isLetter c

def skipWhite (rest : List Char) : List Char := rest.dropWhile isWhite

variable (gen : Gen)

/-- The characters up to the end of the opcode, which no line of an instruction lacks. -/
def scanOpc : List Char → Option (List Char × List Char)
  | [] => none
  | c :: rest =>
    if c = gen.opcTerminator ∨ c = '\n' then some ([], c :: rest)
    else (scanOpc rest).map fun (opc, after) => (c :: opc, after)

/-- An opcode that is too long fills its array without a NUL behind it. -/
def setOpcode (ip : Instruction) : Option Instruction :=
  if ip.state = .junk then some ip
  else
    let rest := skipWhite (ip.restLine.getD [])
    if rest.head? = some gen.labelStarter then
      some { ip with restLine := some rest, opc := labdef, state := .onlyOpc }
    else (scanOpc gen rest).map fun (opc, after) =>
      if gen.maxOpcLen < opc.length then
        { ip with
          restLine := some rest
          opc := opc.take gen.maxOpcLen ++ ip.stale.opc.toList
          state := .junk }
      else
        { ip with
          restLine := some after
          opc := opc
          state := if wellShaped opc then .onlyOpc else .junk }

/-- The characters of an operand, which end at a separator outside parentheses or at the end
of the line. -/
def scanOperand : Int → List Char → Option (List Char × List Char)
  | _, [] => none
  | nesting, c :: rest =>
    if (c = gen.opSeparator ∧ nesting = 0) ∨ c = '\n' then some ([], c :: rest)
    else
      let nesting :=
        if c ∈ gen.parenOpen then nesting + 1
        else if c ∈ gen.parenClose then nesting - 1 else nesting
      (scanOperand nesting rest).map fun (operand, after) => (c :: operand, after)

/-- Writing the operand of a number that the array `op` does not have is undefined. -/
def operand (ip : Instruction) (n : Nat) : Option (Bool × Instruction) :=
  match ip.restLine with
  | none => none
  | some rest =>
    let rest := skipWhite rest
    (scanOperand gen 0 rest).bind fun (text, after) =>
      if text.length = 0 ∨ gen.maxOpLen < text.length then
        some (false, { ip with restLine := some rest })
      else if n < gen.maxOp then
        some (true, { ip with restLine := some after, op := ip.op.set n text })
      else none

def opSeparator (ip : Instruction) : Bool × Instruction :=
  let rest := ip.restLine.map skipWhite
  match rest with
  | some (c :: after) =>
    if c = gen.opSeparator then (true, { ip with restLine := some after })
    else (false, { ip with restLine := rest })
  | _ => (false, { ip with restLine := rest })

/-- The loop over the operands from number `n` on; with `room` places left for them it
does not get further than the array. -/
def operands (room n : Nat) (ip : Instruction) : Option Instruction := do
  let (found, ip) ← operand gen ip n
  if found then
    let (separated, ip) := opSeparator gen ip
    if separated then
      match room with
      | 0 => none
      | room + 1 => operands room (n + 1) ip
    else some ip
  else some ip
termination_by structural room

def labeldef (ip : Instruction) : Instruction :=
  let rest := ip.restLine.getD []
  let text := rest.takeWhile (· ≠ gen.labelTerminator)
  if text.length = 0 ∨ gen.maxOpLen < text.length then ip
  else
    { ip with
      op := ip.op.set 0 text
      restLine :=
        match rest.dropWhile (· ≠ gen.labelTerminator) with
        | [] => none
        | _ :: after => some after }

def remainderEmpty (ip : Instruction) : Bool × Instruction :=
  match ip.restLine with
  | none => (ip.stale.newline, ip)
  | some rest =>
    ((skipWhite rest).head? == some '\n', { ip with restLine := some (skipWhite rest) })

def splitOperands (ip : Instruction) : Option (Bool × Instruction) :=
  (if ip.opc = labdef then some (labeldef gen ip) else operands gen gen.maxOp 0 ip).map fun ip =>
    let (empty, ip) := remainderEmpty ip
    (empty, { ip with state := if empty then .done else .junk })

def lstrip : List Char → List Char → Option (List Char)
  | str, [] => some str
  | [], _ :: _ => none
  | c :: str, d :: ctxt => if c = d then lstrip str ctxt else none

def rstrip (str ctxt : List Char) : Option (List Char) :=
  (lstrip str.reverse ctxt.reverse).map List.reverse

/-- Copying a string that the array of the variable has no room for is undefined. -/
def unify (str : List Char) (v : Variable) : Option (Bool × Variable) :=
  if v.instantiated then some (v.value == str, v)
  else if str.length < gen.maxVarLen then some (true, ⟨true, str⟩)
  else none

def opmatch (t : Template) (s : List Char) (var : Nat → Variable) :
    Option (Bool × (Nat → Variable)) :=
  match t.varno with
  | none => some (s.isEmpty, var)
  | some vno =>
    if s.isEmpty then some (false, var)
    else
      match (lstrip s t.lctxt).bind fun l => rstrip l t.rctxt with
      | none => some (false, var)
      | some l =>
        if vno = 0 then some (l.isEmpty, var)
        else do
          let (unified, v) ← unify gen l (var vno)
          if !unified || (var vno).instantiated then some (unified, Function.update var vno v)
          else
            let (checked, value) ← gen.tokChk vno v.value
            some (checked, Function.update var vno { v with value := value })

/-- The operands of a generated instruction, up to the first template that is not there. -/
def genOperands (var : Nat → Variable) : List Template → List Char
  | [] => []
  | t :: rest =>
    match t.varno with
    | none => []
    | some vno =>
      let separator :=
        match rest with
        | [] => []
        | next :: _ => if next.varno.isSome then [gen.opSeparator] else []
      t.lctxt ++ (if vno ≠ 0 then (var vno).value else []) ++ t.rctxt ++ separator ++
        genOperands var rest

def genLine (var : Nat → Variable) (any : Variable) (id : InstrDescr) : List Char :=
  let opc := id.opcode.getD any.value
  (if opc = labdef then [] else opc ++ [gen.opcTerminator]) ++
    genOperands gen var id.templates ++
    (if opc = labdef then [gen.labelTerminator] else []) ++ ['\n']

end AckFormal.Top
