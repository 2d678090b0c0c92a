import AckFormal.Top.Queue

/-!
# The loop of the target optimizer

`top.c` over the queues: the search for a pattern, its replacement, reading and writing, and
the loop of `optimize`. A step is `none` where the program reads or writes outside its
data.
-/

namespace AckFormal.Top

/-- The static variables and the two queues of `optimize`, with the standard input and
output. -/
structure Optimizer where
  heap : Heap
  window : Queue
  backup : Queue
  var : Nat → Variable
  any : Variable
  rest : Option (List Char)
  junkState : Bool
  input : List Char
  output : List Char

variable (gen : Gen) (stale : Nat → Stale)

/-- The instruction behind those the pattern matches, and `ANY`; a second `ANY` of a pattern
is not compared with the first. -/
def checkPattern (heap : Heap) :
    List InstrDescr → Option Ptr → Variable → Option (Option (Option Ptr) × Variable)
  | [], ip, any => some (some ip, any)
  | _ :: _, none, any => some (none, any)
  | id :: pat, some ip, any =>
    if (heap.node ip).state = .junk then some (none, any)
    else
      match id.opcode with
      | none =>
        (unify gen (heap.node ip).opc any).bind fun (_, any) =>
          checkPattern heap pat (heap.next ip) any
      | some opcode =>
        if (heap.node ip).opc ≠ opcode then some (none, any)
        else checkPattern heap pat (heap.next ip) any

def matchOperands :
    List Template → List (List Char) → (Nat → Variable) → Option (Bool × (Nat → Variable))
  | t :: templates, s :: op, var => do
    let (matched, var) ← opmatch gen t s var
    if matched then matchOperands templates op var else some (false, var)
  | _, _, var => some (true, var)

/-- `ip->state == ONLY_OPC && !split_operands(ip)`, the other way round. -/
def splitOnce (heap : Heap) (ip : Ptr) : Option (Bool × Heap) :=
  if (heap.node ip).state = .onlyOpc then
    (splitOperands gen (heap.node ip)).map fun (split, instr) => (split, heap.set ip instr)
  else some (true, heap)

def checkOperands :
    List InstrDescr → Option Ptr → Heap → (Nat → Variable) → Option (Bool × Heap × (Nat → Variable))
  | [], _, heap, var => some (true, heap, var)
  | _ :: _, none, _, _ => none
  | id :: pat, some ip, heap, var =>
    if (heap.node ip).state = .junk then some (false, heap, var)
    else do
      let (split, heap) ← splitOnce gen heap ip
      if split then
        let (matched, var) ← matchOperands gen id.templates (heap.node ip).op var
        if matched then checkOperands pat (heap.next ip) heap var else some (false, heap, var)
      else some (false, heap, var)

def clearVars (var : Nat → Variable) (v : Nat) : Variable := { var v with instantiated := false }

/-- The generated expression of a pattern over the variables, whose states it leaves alone. -/
def constrain (number : Nat) (s : Optimizer) : Option (Bool × Optimizer) :=
  (gen.checkConstraint number ⟨fun v => (s.var v).value, s.any.value⟩ s.rest).map
    fun (holds, values) =>
      (holds, { s with
        var := fun v => { s.var v with value := values.var v }
        any := { s.any with value := values.any } })

/-- The loop of `try_hashentry` up to the first pattern that matches. -/
def search : List Nat → Optimizer → Option (Option PatternDescr × Optimizer)
  | [], s => some (none, s)
  | number :: list, s => do
      let p ← gen.patterns[number]?
      let (ended, any) ←
        checkPattern gen s.heap p.pat s.window.head { s.any with instantiated := false }
      let s := { s with any := any }
      match ended with
      | none => search list s
      | some ip =>
        let (matched, heap, var) ← checkOperands gen p.pat s.window.head s.heap (clearVars s.var)
        let s :=
          { s with rest := ip.map fun ip => (s.heap.node ip).opc, heap := heap, var := var }
        if matched then
          let (holds, s) ← constrain gen number s
          if holds then some (some p, s) else search list s
        else search list s

def removePattern : Nat → Heap → Queue → Option (Heap × Queue)
  | 0, heap, w => some (heap, w)
  | patlen + 1, heap, w => do
      let ip ← w.head
      let (heap, w) ← removeHead heap w
      removePattern patlen (oldinstr heap ip) w

/-- Building a line that is longer than the array is undefined. -/
def genInstr (var : Nat → Variable) (any : Variable) (id : InstrDescr) (heap : Heap) :
    Option (Heap × Ptr) :=
  let (heap, ip) := newinstr gen.maxOp stale heap
  let line := genLine gen var any id
  if gen.maxLineLen < line.length then none
  else (setOpcode gen { heap.node ip with line := line, restLine := some line }).map fun instr =>
    (heap.set ip instr, ip)

/-- The last instruction is generated and inserted first. -/
def replacement (var : Nat → Variable) (any : Variable) :
    List InstrDescr → Heap → Queue → Option (Heap × Queue)
  | [], heap, w => some (heap, w)
  | id :: repl, heap, w => do
      let (heap, w) ← replacement var any repl heap w
      let (heap, ip) ← genInstr gen stale var any id heap
      insert heap w ip

def xform (p : PatternDescr) (s : Optimizer) : Option Optimizer := do
  let (heap, w) ← removePattern p.pat.length s.heap s.window
  let (heap, w) ← replacement gen stale s.var s.any p.repl heap w
  some { s with heap := heap, window := w }

def tryHashentry (list : List Nat) (s : Optimizer) : Option (Bool × Optimizer) := do
  let (found, s) ← search gen list s
  match found with
  | none => some (false, s)
  | some p => (xform gen stale p s).map (true, ·)

def charValue (c : Char) : Int := if c.toNat < 128 then c.toNat else c.toNat - 256

def hashSum : List Char → Nat → Int
  | [], _ => 0
  | c :: opc, i => charValue c * 2 ^ (i % 4) + hashSum opc (i + 3)

def hash (opc : List Char) : Int := (hashSum opc 0).tmod 128

def hashIndex (s : Optimizer) : Option Nat := do
  let head ← s.window.head
  let index := hash (s.heap.node head).opc
  if 0 ≤ index then some index.toNat else none

/-- The two calls of `try_hashentry`, the second if the first found nothing. -/
def tryWindow (s : Optimizer) : Option (Bool × Optimizer) := do
  let index ← hashIndex s
  let (hit, s) ← tryHashentry gen stale (gen.hashtab index) s
  if hit then some (true, s) else tryHashentry gen stale gen.hashany s

/-- The characters of a line up to its end, as far as they fit, with what is unread and whether the
end was seen. -/
def readChars : Nat → Char → List Char → List Char × List Char × Bool
  | 0, c, input => ([], c :: input, false)
  | room + 1, c, input =>
    if c = '\n' then ([c], input, true)
    else
      match input with
      | [] => ([c], [], false)
      | next :: input =>
        let (line, rest, ended) := readChars room next input
        (c :: line, rest, ended)

/-- At the end of the input the new instruction is left alone. -/
def readInstr (s : Optimizer) : Option Ptr × Optimizer :=
  let (heap, ip) := newinstr gen.maxOp stale s.heap
  match s.input with
  | [] => (none, { s with heap := heap })
  | c :: input =>
    let (line, rest, ended) := readChars gen.maxLineLen c input
    let state := if ended && !s.junkState then .onlyOpc else .junk
    (some ip, { s with
      heap := heap.set ip { heap.node ip with line := line, state := state }
      junkState := !ended
      input := rest })

def fill : Nat → Optimizer → Option Optimizer
  | 0, s => some s
  | count + 1, s =>
    match readInstr gen stale s with
    | (none, s) => some s
    | (some ip, s) => do
        let instr := s.heap.node ip
        let instr ← setOpcode gen { instr with restLine := some instr.line }
        let (heap, w) ← add (s.heap.set ip instr) s.window ip
        fill count { s with heap := heap, window := w }

def fillWindow (len : Nat) (s : Optimizer) : Option Optimizer := fill gen stale (len - s.window.qlen) s

def writeFirst (s : Optimizer) : Option Optimizer := do
  let ip ← s.backup.head
  let (heap, q) ← removeHead s.heap s.backup
  some { s with heap := oldinstr heap ip, backup := q, output := s.output ++ s.heap.text ip }

/-- Moves the first instruction of the window to the back-up queue. -/
def shift (s : Optimizer) : Option Optimizer := do
  let ip ← s.window.head
  let (heap, w) ← removeHead s.heap s.window
  let (heap, q) ← add heap s.backup ip
  let s := { s with heap := heap, window := w, backup := q }
  if gen.minWindowSize < s.backup.qlen then writeFirst s else some s

def join (s : Optimizer) : Option Optimizer :=
  (joinQueues s.heap s.backup s.window).map fun (heap, q, w) =>
    { s with heap := heap, backup := q, window := w }

def turn (s : Optimizer) : Option Optimizer := do
  let (hit, s) ← tryWindow gen stale s
  let s ← if hit then join s else shift gen s
  fillWindow gen stale gen.minWindowSize s

def flush : Nat → Optimizer → Option Optimizer
  | 0, s => some s
  | count + 1, s => do
      let s ← writeFirst s
      flush count s

def initial (input : Text) : Optimizer where
  heap := ⟨fun _ => ⟨none, none, [], none, [], [], .onlyOpc, stale 0⟩, none, 0, 0⟩
  window := emptyQueue
  backup := emptyQueue
  var := fun _ => ⟨false, []⟩
  any := ⟨false, []⟩
  rest := none
  junkState := false
  input := input.chars
  output := []

def start (input : Text) : Option Optimizer :=
  fillWindow gen stale gen.minWindowSize (initial stale input)

/-- The turns of the loop from a state on, as long as `fuel` lasts, and what follows them. -/
def run : Nat → Optimizer → Option Optimizer
  | 0, _ => none
  | fuel + 1, s => do
      if empty s.window then flush s.backup.qlen s
      else run fuel (← turn gen stale s)

def optimize (fuel : Nat) (input : Text) : Option (List Char) := do
  let s ← start gen stale input
  let s ← run gen stale fuel s
  some s.output

end AckFormal.Top
