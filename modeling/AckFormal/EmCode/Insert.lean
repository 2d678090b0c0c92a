import AckFormal.Led.Fields

/-!
# Parts of the EM code output

`C_insertpart`, `C_beginpart` and `C_endpart` of `insert.c`, with the output buffer and
`C_close` of `em.c`.  The parts are kept in core.
-/

namespace AckFormal.EmCode

open Led (Byte)

structure Bufsiz where
  bits : Nat
  fits : bits < 32

def Bufsiz.siz (buf : Bufsiz) : Nat := 2 ^ buf.bits

/-- `PartOfPart`: a chunk of text in the store, or a part to be inserted.  The end of
a chunk is not there before the chunk is ended. -/
inductive PartOfPart where
  | text (begin : Nat) (stop : Option Nat)
  | insert (id : Nat)

/-- `Part`.  The chunks are in reverse order; `p_prevpart` is the id of the part. -/
structure Part where
  parts : List PartOfPart
  prevpart : Option Nat

/-- The static variables.  `base` is the store from `C_BASE` up to where text is put,
`bufsiz` its size, which is 0 if `C_BASE` is, `obuf` what is in the output buffer, and
`file` what has been written. -/
structure Code where
  ontmpfile : Bool
  sequential : Bool
  currPart : Option Nat
  stable : Nat → Option Part
  base : List Byte
  bufsiz : Nat
  obuf : List Byte
  file : List Byte

namespace Code

def start : Code :=
  { ontmpfile := false, sequential := true, currPart := none, stable := fun _ => none,
    base := [], bufsiz := 0, obuf := [], file := [] }

section Output

variable (buf : Bufsiz) (s : Code)

/-- `C_flush`.  The size of the store is an `unsigned int`; `Srealloc` to nothing leaves
no store. -/
def flush : Option Code :=
  if s.ontmpfile then
    let bufsiz := if s.bufsiz = 0 then buf.siz else s.bufsiz * 2 % 2 ^ 32
    if bufsiz = 0 then none else some { s with bufsiz := bufsiz }
  else some { s with file := s.file ++ s.obuf, obuf := [] }

def full : Bool :=
  if s.ontmpfile then s.base.length == s.bufsiz else s.obuf.length == buf.siz

def push (c : Byte) : Code :=
  if s.ontmpfile then { s with base := s.base ++ [c] } else { s with obuf := s.obuf ++ [c] }

def put (c : Byte) : Option Code :=
  (if s.full buf then s.flush buf else some s).map fun s => s.push c

/-- The loop of `C_out_parts` that copies a chunk. -/
def copy (begin stop : Nat) : Option Code :=
  (List.range' begin (stop - begin)).foldlM
    (fun s b => s.base[b]?.bind fun c => s.put buf c) s

def outChunk (outpart : Nat → Code → Option Code) (s : Code) : PartOfPart → Option Code
  | .insert id => outpart id s
  | .text begin (some stop) => s.copy buf begin stop
  | .text _ none => none

def clear (id : Nat) (s : Code) : Code :=
  { s with
    stable := Function.update s.stable id ((s.stable id).map fun p => { p with parts := [] }) }

def outpart : Nat → Nat → Code → Option Code
  | 0, _, _ => none
  | fuel + 1, id, s =>
    match s.stable id with
    | none => some s
    | some p => (p.parts.reverse.foldlM (outChunk buf (outpart fuel)) s).map (clear id)

end Output

def availableParts (available : Nat → Option Bool) : List PartOfPart → Option Bool
  | [] => some true
  | .insert id :: rest => do
      if ← available id then availableParts available rest else some false
  | .text _ _ :: rest => availableParts available rest

/-- `available`.  The parts whose flag `BUSY` is set are in `busy`. -/
def available (stable : Nat → Option Part) : Nat → List Nat → Nat → Option Bool
  | 0, _, _ => none
  | fuel + 1, busy, part =>
    match stable part with
    | none => some false
    | some p =>
      if part ∈ busy then none
      else availableParts (available stable fuel (part :: busy)) p.parts

def mkpart (part : Nat) (s : Code) : Option Code :=
  if (s.stable part).isSome then none
  else some { s with stable := Function.update s.stable part (some ⟨[], none⟩) }

def endPartofpart (p : Part) (s : Code) : Option Part :=
  match p.parts with
  | .text begin _ :: rest =>
    if begin = s.base.length then some { p with parts := rest }
    else some { p with parts := .text begin (some s.base.length) :: rest }
  | _ => none

def endCurrent (s : Code) : Option Code :=
  match s.currPart with
  | none => some s
  | some id => do
      let p ← s.stable id
      let p ← s.endPartofpart p
      some { s with stable := Function.update s.stable id (some p) }

def resume (id : Nat) (s : Code) : Option Code := do
  let p ← s.stable id
  some { s with
    ontmpfile := true, currPart := some id,
    stable := Function.update s.stable id
      (some { p with parts := .text s.base.length none :: p.parts }) }

/-- The end of `C_insertpart`: add the insertion to part `p`. -/
def addInsert (p part : Nat) (s : Code) : Option Code := do
  let q ← s.stable p
  resume p { s with
    stable := Function.update s.stable p (some { q with parts := .insert part :: q.parts }) }

def insertpart (buf : Bufsiz) (fuel : Nat) (part : Nat) (s : Code) : Option Code :=
  if s.sequential then do
    if ← available s.stable (fuel + 1) [] part then outpart buf (fuel + 1) part s
    else
      let s ← mkpart 0 { s with sequential := false }
      addInsert 0 part { s with currPart := some 0 }
  else do
    let p ← s.currPart
    let s ← s.endCurrent
    addInsert p part s

def beginpart (part : Nat) (s : Code) : Option Code := do
  let s ← mkpart part s
  let s ← s.endCurrent
  let p ← s.stable part
  resume part { s with
    stable := Function.update s.stable part (some { p with prevpart := s.currPart }) }

def endpart (part : Nat) (s : Code) : Option Code := do
  let id ← s.currPart
  if id ≠ part then none
  else
    let s ← s.endCurrent
    let p ← s.stable id
    match p.prevpart with
    | some prev => resume prev s
    | none => some { s with currPart := none, ontmpfile := false }

def stopCurrent (s : Code) : Option Code :=
  match s.currPart with
  | none => some s
  | some id => do
      let p ← s.stable id
      match p.parts with
      | .text begin _ :: rest =>
        some { s with
          stable := Function.update s.stable id
            (some { p with parts := .text begin (some s.base.length) :: rest }) }
      | _ => none

def close (buf : Bufsiz) (fuel : Nat) (s : Code) : Option (List Byte) := do
  let s ←
    if s.bufsiz = 0 then some s
    else do
      let s ← s.stopCurrent
      let s := { s with ontmpfile := false }
      if s.sequential then some s else outpart buf (fuel + 1) 0 s
  let s ← s.flush buf
  some s.file

end Code

inductive Call where
  | put (c : Byte)
  | beginpart (n : Nat)
  | endpart (n : Nat)
  | insertpart (n : Nat)

def Code.call (buf : Bufsiz) (fuel : Nat) (s : Code) : Call → Option Code
  | .put c => s.put buf c
  | .beginpart n => s.beginpart n
  | .endpart n => s.endpart n
  | .insertpart n => s.insertpart buf fuel n

def write (buf : Bufsiz) (fuel : Nat) (calls : List Call) : Option (List Byte) := do
  let s ← calls.foldlM (Code.call buf fuel) Code.start
  s.close buf fuel

end AckFormal.EmCode
