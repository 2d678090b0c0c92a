import AckFormal.Object.Parts

/-!
# Writing an object file

The routines of `wr.c`.  Sections 0 and 1 have a part of their own and all others share
one, which `wr_outsect` moves from one section to the other.
-/

namespace AckFormal.Object

open Led (Byte)
open Lib

/-- A call between `wr_sect` and `wr_close`. -/
inductive Call where
  | outsect (sectno : Nat)
  | emit (b : List Byte)
  | putc (ch : Byte)
  | relo (relos : List Outrelo)
  | name (names : List Outname)
  | string (b : List Byte)

namespace Writer

def wrOpen : Writer where
  offset := fun _ => 0
  parts := fun _ => ⟨0, 0, 0, 0, 0, fun _ => 0⟩
  sectionnr := 0
  offcnt := 0
  file := fun _ => 0
  size := 0

def wrOhead (wbuf : Wbuf) (w : Writer) (head : Outhead) : Writer :=
  let w := beginseek wbuf w partemit 0
  let w := beginseek wbuf w partrelo head.offRelo
  let w := beginseek wbuf w partname head.offName
  let w := beginseek wbuf w partchar head.offChar
  outwrite wbuf w partemit head.bytes

/-- One turn of the first loop of `wr_sect`. -/
def placeSect (wbuf : Wbuf) (w : Writer) (sect : Outsect) : Writer :=
  let w :=
    if 1 ≤ w.offcnt ∧ w.offcnt < sectcnt then
      beginseek wbuf w (partemit + w.offcnt) sect.foff.toNat
    else w
  { w with
    offset := Function.update w.offset w.offcnt sect.foff.toNat
    offcnt := w.offcnt + 1 }

def wrSect (wbuf : Wbuf) (w : Writer) (sects : List Outsect) : Writer :=
  wrRecords wbuf partemit szSect (by decide) (by decide) (sects.foldl (placeSect wbuf) w)
    (sects.map Outsect.bytes)

def wrOutsect (wbuf : Wbuf) (w : Writer) (sectno : Nat) : Writer :=
  let p := partemit + getsect w.sectionnr
  if sectno ≠ w.sectionnr ∧ sectcnt - 1 ≤ sectno ∧ sectcnt - 1 ≤ w.sectionnr then
    let w' := w.wrBytes p (w.pending p)
    let o := w'.offset sectno
    let cnt := wbuf.siz - o % wbuf.siz
    let ptr := w'.parts p
    let w' := w'.setPart p
      { ptr with
        fd := if o ≠ ptr.currpos then o else ptr.fd
        currpos := o
        cnt := cnt
        pbegin := wbuf.siz - cnt
        pnow := wbuf.siz - cnt }
    { w' with sectionnr := sectno }
  else { w with sectionnr := sectno }

def call (wbuf : Wbuf) (w : Writer) : Call → Writer
  | .outsect sectno => wrOutsect wbuf w sectno
  | .emit b => outwrite wbuf w (partemit + getsect w.sectionnr) b
  | .putc ch => putcPart wbuf w (partemit + getsect w.sectionnr) ch
  | .relo relos =>
    wrRecords wbuf partrelo szRelo (by decide) (by decide) w (relos.map Outrelo.bytes)
  | .name names =>
    wrRecords wbuf partname szName (by decide) (by decide) w (names.map Outname.bytes)
  | .string b => outwrite wbuf w partchar b

def wrClose (wbuf : Wbuf) (w : Writer) : Writer :=
  (List.range nparts).foldl (wrFlush wbuf) w

def write (wbuf : Wbuf) (head : Outhead) (sects : List Outsect) (calls : List Call) : Writer :=
  wrClose wbuf (calls.foldl (call wbuf) (wrSect wbuf (wrOhead wbuf wrOpen head) sects))

end Writer

/-! ## What is sent where -/

inductive Area where
  | sect (s : Nat)
  | relo
  | name
  | char
deriving DecidableEq

/-- What the calls have sent to every area, and the section that is selected. -/
structure Traffic where
  selected : Nat
  sent : Area → List Byte

namespace Traffic

def start : Traffic := ⟨0, fun _ => []⟩

def add (t : Traffic) (area : Area) (b : List Byte) : Traffic :=
  { t with sent := Function.update t.sent area (t.sent area ++ b) }

def call (t : Traffic) : Call → Traffic
  | .outsect sectno => { t with selected := sectno }
  | .emit b => t.add (.sect t.selected) b
  | .putc ch => t.add (.sect t.selected) [ch]
  | .relo relos => t.add .relo (relos.map Outrelo.bytes).flatten
  | .name names => t.add .name (names.map Outname.bytes).flatten
  | .string b => t.add .char b

end Traffic

def traffic (calls : List Call) : Traffic :=
  calls.foldl Traffic.call Traffic.start

/-- The section that the shared part stands at, if every call finds it where it has to be:
at the section that bytes are sent to, and at the section that is left directly for
another one of the shared part. -/
def track (state : Option (Nat × Nat)) (c : Call) : Option (Nat × Nat) :=
  state.bind fun (selected, held) =>
    match c with
    | .outsect sectno =>
      if sectno ≠ selected ∧ sectcnt - 1 ≤ sectno ∧ sectcnt - 1 ≤ selected then
        if selected = held then some (sectno, sectno) else none
      else some (sectno, held)
    | .emit _ | .putc _ =>
      if selected < sectcnt - 1 ∨ selected = held then some (selected, held) else none
    | _ => some (selected, held)

/-- The shared part stands at section 2 first. -/
def tracked (calls : List Call) : Option (Nat × Nat) :=
  calls.foldl track (some (0, sectcnt - 1))

section Areas

variable (head : Outhead) (sects : List Outsect)

/-- Where an area starts.  The part of section 0 starts with the header. -/
def Area.start : Area → Nat
  | .sect 0 => 0
  | .sect (s + 1) => (sects.getD (s + 1) default).foff.toNat
  | .relo => head.offRelo
  | .name => head.offName
  | .char => head.offChar

def Area.front : Area → List Byte
  | .sect 0 => head.bytes ++ (sects.map Outsect.bytes).flatten
  | _ => []

def Area.bytes (t : Traffic) (area : Area) : List Byte :=
  area.front head sects ++ t.sent area

def Area.Live : Area → Prop
  | .sect s => s = 0 ∨ s < sects.length
  | _ => True

end Areas

def Area.part : Area → Nat
  | .sect s => partemit + getsect s
  | .relo => partrelo
  | .name => partname
  | .char => partchar

def Area.Attached (held : Nat) : Area → Prop
  | .sect s => s < sectcnt - 1 ∨ s = held
  | _ => True

end AckFormal.Object
