import AckFormal.Led.Symbols

/-!
# The two passes of led, with everything in core

The modules are given as the object files hold them.  The flags come before the
files.  All allocations succeed, so the section contents of all modules end up in
the pieces `ALLOEMIT`, where the second pass finds them again.  `none` stands for a
call of `fatal`; reading archives and printing messages are left out.
-/

namespace AckFormal.Led

/-- An entry of the section table of a module, with the bytes of the section. -/
structure Sect where
  size : BitVec 32
  flen : BitVec 32
  lign : BitVec 32
  contents : Core

instance : Inhabited Sect := ⟨⟨0, 0, 0, fun _ => 0⟩⟩

structure Relo where
  type : BitVec 16
  sect : BitVec 16
  nami : BitVec 16
  addr : BitVec 32

structure Module where
  sects : List Sect
  relos : List Relo
  names : List Name
  nemit : BitVec 32

structure OutSect where
  base : BitVec 32
  size : BitVec 32
  foff : BitVec 32
  flen : BitVec 32
  lign : BitVec 32

/-- `flagword`, and the bases and alignments given with `-b` and `-a`. -/
structure Flags where
  rflag : Bool
  sflag : Bool
  cflag : Bool
  nflag : Bool
  base : Nat → Option (BitVec 32)
  lign : Nat → Option (BitVec 32)

def maxsect : Nat := 64
def szHead : Nat := 20
def szSect : Nat := 20

/-! ## Pieces of core -/

structure Piece where
  full : Nat
  bytes : Core

def Piece.append (piece : Piece) (n : Nat) (contents : Core) : Piece where
  full := piece.full + n
  bytes := fun i =>
    if piece.full ≤ i ∧ i < piece.full + n then contents (i - piece.full) else piece.bytes i

/-! ## Pass 1 -/

/-- The rounding of a section size in `direct_alloc`. -/
def Sect.rounded (sect : Sect) : Sect :=
  if sect.lign > 1#32 then
    let size := sect.size + (sect.lign - 1#32)
    { sect with size := size - size % sect.lign }
  else sect

def directAlloc (modul : Module) : Module :=
  { modul with sects := modul.sects.map Sect.rounded }

structure Tables where
  globals : SymTab
  locals : List Name
  nlocals : BitVec 16
  nerrors : BitVec 16

/-- A module in core: `emitindex` has for each section its place in the piece for
that section. -/
structure Saved where
  modul : Module
  emitindex : Nat → Nat

structure Scan where
  nsect : Nat
  nrelo : BitVec 16
  nemit : BitVec 32
  outsect : Nat → OutSect
  relorig : Nat → Int
  zeros : Nat → Int
  emits : Nat → Piece
  tables : Tables
  saved : List Saved

/-- `putemitindex`, and `rd_emit` for the section: the piece, the new value of
`zeros`, and the offset that is put in the module. -/
def putemitindex (sect : Sect) (zero : Int) (piece : Piece) : Piece × Int × Nat :=
  let gap := sect.flen ≠ 0#32 ∧ zero ≠ 0
  let filled := if gap then piece.append zero.toNat (fun _ => 0) else piece
  let zero := if gap then 0 else zero
  (filled.append sect.flen.toNat sect.contents,
    zero + (sect.size.toNat : Int) - (sect.flen.toNat : Int), filled.full)

/-- A negative number of zeros cannot be allocated. -/
def fillable (scan : Scan) (modul : Module) (s : Nat) : Bool :=
  (modul.sects.getD s default).flen = 0#32 ∨ 0 ≤ scan.zeros s

/-- `scan_modul`.  If an allocation fails led leaves core: that is no run of the
model. -/
def scanModul (scan : Scan) (modul : Module) : Option Scan :=
  let put := fun s => putemitindex (modul.sects.getD s default) (scan.zeros s) (scan.emits s)
  if (List.range modul.sects.length).all (fillable scan modul) then
    some { scan with
      emits := fun s => if s < modul.sects.length then (put s).1 else scan.emits s
      zeros := fun s => if s < modul.sects.length then (put s).2.1 else scan.zeros s
      saved := scan.saved ++ [⟨modul, fun s => (put s).2.2⟩] }
  else none

def namerelocate (relorig : Nat → Int) (name : Name) : Option Name :=
  let sct := styp name.type
  if sct = sUnd ∨ sct = sAbs ∨ sct = sCrs then some name
  else if isCom name.type then
    if !isExt name.type then none else some name
  else some { name with valu := name.valu + BitVec.ofInt 32 (relorig (sct - sMin)) }

def getName (sflag : Bool) (relorig : Nat → Int) (tables : Tables) (name : Name) :
    Option Tables := do
  let name ← namerelocate relorig name
  if isExt name.type then
    some { tables with
      globals := getexternal tables.globals name
      nerrors := tables.nerrors + if multiplyDefined tables.globals name then 1 else 0 }
  else if !sflag && name.mustsavelocal then
    some { tables with
      locals := tables.locals ++ [name]
      nlocals := tables.nlocals + 1 }
  else some tables

def getNames (flags : Flags) (scan : Scan) (modul : Module) : Option Scan := do
  let tables ← modul.names.foldlM (getName flags.sflag scan.relorig) scan.tables
  some { scan with tables := tables }

/-- What `process` does to one entry of the output section table. -/
def addSect (out : OutSect) (sect : Sect) : OutSect :=
  { out with
    flen := if sect.flen ≠ 0#32 then out.size + sect.flen else out.flen + sect.flen
    size := out.size + sect.size }

/-- The zeros that `process` counts as emitted before a section. -/
def gap (out : OutSect) (sect : Sect) : BitVec 32 :=
  if sect.flen ≠ 0#32 then out.size - out.flen else 0

def process (scan : Scan) (modul : Module) : Scan :=
  let nsect := modul.sects.length
  let outsect := fun s =>
    if s < nsect then addSect (scan.outsect s) (modul.sects.getD s default) else scan.outsect s
  { scan with
    nrelo := scan.nrelo + BitVec.ofNat 16 modul.relos.length
    nemit := (List.range nsect).foldl
      (fun nemit s => nemit + gap (scan.outsect s) (modul.sects.getD s default))
      (scan.nemit + modul.nemit)
    nsect := max scan.nsect nsect
    outsect := outsect
    relorig := fun s => if s < nsect then ((outsect s).size.toNat : Int) else scan.relorig s }

def extract (flags : Flags) (scan : Scan) (modul : Module) : Option Scan := do
  let modul := directAlloc modul
  let scan ← scanModul scan modul
  let scan ← getNames flags scan modul
  some (process scan modul)

/-- The globals before the first file, with the names of the flags `-u`. -/
def Scan.initial (undefs : List Str) : Scan where
  nsect := 0
  nrelo := 0
  nemit := 0
  outsect := fun _ => ⟨0, 0, 0, 0, 0⟩
  relorig := fun _ => 0
  zeros := fun _ => 0
  emits := fun _ => ⟨0, fun _ => 0⟩
  tables := ⟨undefs.foldl enterundef SymTab.empty, [], 0, 0⟩
  saved := []

def firstPass (flags : Flags) (undefs : List Str) (moduls : List Module) : Option Scan :=
  moduls.foldlM (extract flags) (Scan.initial undefs)

/-! ## Between the passes -/

/-- The second loop of `norm_commons`: commons get an address behind the section. -/
def normLoop (outsect : Nat → OutSect) : (Nat → Int) → List Name → List Name × (Nat → Int)
  | comm, [] => ([], comm)
  | comm, name :: rest =>
    if !name.isAbsolute && name.isCommon then
      let sectindex := styp name.type - sMin
      let placed := { name with
        valu := (outsect sectindex).size + BitVec.ofInt 32 (comm sectindex)
        type := name.type &&& ~~~0x1000#16 }
      let later := normLoop outsect
        (Function.update comm sectindex (comm sectindex + name.valu.toNat)) rest
      (placed :: later.1, later.2)
    else
      let later := normLoop outsect comm rest
      (name :: later.1, later.2)

theorem normLoop_str (outsect : Nat → OutSect) (comm : Nat → Int) (names : List Name) :
    (normLoop outsect comm names).1.map Name.str = names.map Name.str := by
  induction names generalizing comm with
  | nil => rfl
  | cons name rest ih =>
    simp only [normLoop]
    split
    · simp only [List.map_cons, ih]
    · simp only [List.map_cons, ih]

/-- A loop over the first `NGlobals` names: the others stay as they are. -/
def SymTab.rewriteCounted (tab : SymTab) (change : List Name → List Name)
    (keeps : ∀ names, (change names).map Name.str = names.map Name.str) : SymTab :=
  tab.rewrite (change (tab.names.take tab.nglobals.toNat) ++ tab.names.drop tab.nglobals.toNat)
    (by rw [List.map_append, keeps, ← List.map_append, List.take_append_drop])

def someUndefined (tab : SymTab) : Bool :=
  (tab.names.take tab.nglobals.toNat).any Name.isUndefined

/-- The flags after `norm_commons`: undefined names make the output relocatable. -/
def undefinedFlags (flags : Flags) (tab : SymTab) : Flags :=
  if someUndefined tab && !flags.rflag then { flags with sflag := false, rflag := true } else flags

def normCommons (rflag : Bool) (outsect : Nat → OutSect) (tab : SymTab) : SymTab × (Nat → Int) :=
  if rflag then (tab, fun _ => 0)
  else
    (tab.rewriteCounted (fun names => (normLoop outsect (fun _ => 0) names).1)
      (normLoop_str outsect _),
      (normLoop outsect (fun _ => 0) (tab.names.take tab.nglobals.toNat)).2)

structure Layout where
  base : BitVec 32
  foff : BitVec 32
  outsect : Nat → OutSect

def alignBase (base lign : BitVec 32) : BitVec 32 :=
  if lign ≠ 0#32 then
    let base := base + (lign - 1#32)
    base - base % lign
  else base

def completeSection (flags : Flags) (comm : Nat → Int) (layout : Layout) (s : Nat) :
    Option Layout :=
  let sc := { layout.outsect s with foff := layout.foff }
  let foff := layout.foff + sc.flen
  if flags.rflag then
    some { layout with foff := foff, outsect := Function.update layout.outsect s sc }
  else
    let size := sc.size + BitVec.ofInt 32 (comm s)
    let lign := (flags.lign s).getD 1#32
    let done := fun base => some
      { base := base + size
        foff := foff
        outsect := Function.update layout.outsect s
          { sc with size := size, lign := lign, base := base } }
    match flags.base s with
    | some base => if lign ≠ 0#32 ∧ base % lign ≠ 0#32 then none else done base
    | none => done (alignBase layout.base lign)

def completeSections (flags : Flags) (comm : Nat → Int) (nsect : Nat)
    (outsect : Nat → OutSect) : Option (Nat → OutSect) := do
  let layout ← (List.range nsect).foldlM (completeSection flags comm)
    ⟨0, BitVec.ofNat 32 (szHead + nsect * szSect), outsect⟩
  some layout.outsect

def addbase (outsect : Nat → OutSect) (name : Name) : Name :=
  let type := styp name.type
  if type = sUnd ∨ type = sAbs ∨ type = sCrs then name
  else if isCom name.type then name
  else { name with valu := name.valu + (outsect (type - sMin)).base }

theorem addbase_str (outsect : Nat → OutSect) (name : Name) :
    (addbase outsect name).str = name.str := by
  simp only [addbase]
  split
  · rfl
  · split <;> rfl

def changeLoop (outsect : Nat → OutSect) (cnt : Nat) (names : List Name) : List Name :=
  (names.take cnt).map (addbase outsect) ++ names.drop cnt

theorem map_addbase_str (outsect : Nat → OutSect) (names : List Name) :
    (names.map (addbase outsect)).map Name.str = names.map Name.str := by
  rw [List.map_map]
  exact List.map_congr_left (fun name _ => addbase_str outsect name)

structure Plan where
  flags : Flags
  nsect : Nat
  outsect : Nat → OutSect
  globals : SymTab
  locals : List Name
  nlocals : BitVec 16

def evaluate (flags : Flags) (scan : Scan) : Option Plan := do
  let flags := undefinedFlags flags scan.tables.globals
  let (globals, comm) := normCommons flags.rflag scan.outsect scan.tables.globals
  let outsect ← completeSections flags comm scan.nsect scan.outsect
  let nlocals := scan.tables.nlocals
  if flags.rflag || flags.nflag then
    some ⟨flags, scan.nsect, outsect, globals, scan.tables.locals, nlocals⟩
  else
    some ⟨flags, scan.nsect, outsect,
      globals.rewriteCounted (List.map (addbase outsect)) (map_addbase_str outsect),
      changeLoop outsect nlocals.toNat scan.tables.locals, nlocals⟩

/-! ## Pass 2 -/

def addrelo (plan : Plan) (relorig : Nat → Int) (local_ : Name) (valu : Int) :
    Option (BitVec 16 × Int) :=
  let index := plan.nlocals
  let nglobals := plan.globals.nglobals
  if isSct local_.type then
    let sectindex := styp local_.type - sMin
    some (index + (nglobals + BitVec.ofNat 16 sectindex),
      valu + relorig sectindex + ((plan.outsect sectindex).base.toNat : Int))
  else
    match plan.globals.searchname local_.str with
    | none => none
    | some i =>
      match plan.globals.names[i]? with
      | none => none
      | some name =>
        if name.isCommon || name.isUndefined then some (index + BitVec.ofNat 16 i, valu)
        else
          let after := if styp name.type = sAbs then plan.nsect else styp name.type - sMin
          some (index + (nglobals + BitVec.ofNat 16 after), valu + (name.valu.toNat : Int))

/-- What `relocate` does with the name of a relocation.  The first index outside the
name table of the module stands for absolute. -/
def refer (plan : Plan) (relorig : Nat → Int) (names : List Name) (relo : Relo) (valu : Int) :
    Option (BitVec 16 × Int) :=
  match names[relo.nami.toNat]? with
  | some local_ => addrelo plan relorig local_ valu
  | none => some (plan.nlocals + (plan.globals.nglobals + BitVec.ofNat 16 plan.nsect), valu)

/-- `relocate`, with the bytes of the section at `emit`: the changed relocation and
the changed bytes. -/
def relocate (plan : Plan) (relorig : Nat → Int) (names : List Name) (emit : Core) (relo : Relo)
    (off : Nat) : Option (Relo × Core) := do
  let sectindex := relo.sect.toNat - sMin
  let position := relo.addr.toNat - off
  let valu ← getvalu (window emit position) relo.type
  let (nami, valu) ← refer plan relorig names relo (valu.toNat : Int)
  let valu :=
    if relpc relo.type then
      valu - (relorig sectindex + ((plan.outsect sectindex).base.toNat : Int))
    else valu
  let field ← putvalu (BitVec.ofInt 32 valu) (window emit position) relo.type
  some ({ relo with nami := nami, addr := relo.addr + BitVec.ofInt 32 (relorig sectindex) },
    graft emit position field)

/-- The variables of the second pass: the origins, the bytes in the pieces
`ALLOEMIT`, and the relocations in `ALLORELO` that have been changed. -/
structure Pass2 where
  relorig : Nat → Int
  emits : Nat → Core
  relos : List Relo

def handleRelo (plan : Plan) (saved : Saved) (pass : Pass2) (relo : Relo) : Option Pass2 := do
  let sectindex := relo.sect.toNat - sMin
  let index := saved.emitindex sectindex
  let (relo, emit) ← relocate plan pass.relorig saved.modul.names
    (window (pass.emits sectindex) index) relo 0
  some { pass with
    emits := Function.update pass.emits sectindex (graft (pass.emits sectindex) index emit)
    relos := pass.relos ++ [relo] }

def computeOrigins (relorig : Nat → Int) (modul : Module) : Nat → Int :=
  fun s =>
    if s < modul.sects.length then relorig s + ((modul.sects.getD s default).size.toNat : Int)
    else relorig s

def finish (plan : Plan) (pass : Pass2) (saved : Saved) : Option Pass2 := do
  let pass ← saved.modul.relos.foldlM (handleRelo plan saved) pass
  some { pass with relorig := computeOrigins pass.relorig saved.modul }

def secondPass (plan : Plan) (scan : Scan) : Option Pass2 :=
  scan.saved.foldlM (finish plan)
    ⟨fun s => if s < scan.nsect then 0 else scan.relorig s, fun s => (scan.emits s).bytes, []⟩

/-! ## Output -/

def sectionNames (plan : Plan) : List Name :=
  (List.range plan.nsect).map fun s =>
    ⟨[], BitVec.ofNat 16 (sMin + s) ||| 0x100#16, 0, (plan.outsect s).base, []⟩

/-- `do_crs`.  A string that is no global name is a null pointer here. -/
def doCrs (plan : Plan) (name : Name) : Option Name :=
  if styp name.type = sCrs then
    match plan.globals.searchname name.crs with
    | none => none
    | some i =>
      if plan.flags.rflag then
        some { name with valu := plan.nlocals.zeroExtend 32 + BitVec.ofNat 32 i }
      else
        (plan.globals.names[i]?).map fun p =>
          { name with
            valu := p.valu
            type := (name.type &&& ~~~0x7f#16) ||| (p.type &&& 0x7f#16) }
  else some name

/-- The status that `stop` exits with: the number of errors, of which only the low
byte is seen. -/
def stopStatus (flags : Flags) (tables : Tables) : Nat :=
  if tables.nerrors ≠ 0#16 then tables.nerrors.toNat % 256
  else if someUndefined tables.globals && !flags.rflag then 1 else 0

/-- The output file: its header, section table, section contents, relocations and
names, with the symbol table in core and the status that led exits with.  After an
error the file is removed. -/
structure Output where
  nsect : Nat
  nrelo : BitVec 16
  nname : BitVec 16
  nemit : BitVec 32
  outsect : Nat → OutSect
  emits : Nat → Piece
  relos : List Relo
  names : List Name
  symbols : SymTab
  removed : Bool
  status : Nat

def localNames (plan : Plan) : Option (List Name) :=
  if plan.flags.sflag then some []
  else (plan.locals.take plan.nlocals.toNat).mapM (doCrs plan)

def output (flags : Flags) (scan : Scan) (plan : Plan) (pass : Pass2) : Option Output := do
  let nglobals := plan.globals.nglobals
  let nrelo := if plan.flags.cflag || plan.flags.rflag then scan.nrelo else 0
  let locals ← localNames plan
  let globals :=
    (plan.globals.names ++ sectionNames plan).take (nglobals.toNat + plan.nsect)
  some
    { nsect := plan.nsect
      nrelo := nrelo
      nname := if plan.flags.sflag then 0 else
        plan.nlocals + nglobals + BitVec.ofNat 16 plan.nsect
      nemit := scan.nemit
      outsect := plan.outsect
      emits := fun s => ⟨(scan.emits s).full, pass.emits s⟩
      relos := if plan.flags.cflag || plan.flags.rflag then pass.relos.take nrelo.toNat else []
      names := if plan.flags.sflag then [] else locals ++ globals
      symbols := plan.globals
      removed := scan.tables.nerrors ≠ 0#16
      status := stopStatus flags scan.tables }

def link (flags : Flags) (undefs : List Str) (moduls : List Module) : Option Output := do
  let scan ← firstPass flags undefs moduls
  let plan ← evaluate flags scan
  let pass ← secondPass plan scan
  output flags scan plan pass

/-- The bytes of the section contents in the file: `write_bytes` writes every piece
at the file offset of its section. -/
def Output.file (out : Output) : Core :=
  (List.range maxsect).foldl
    (fun file s => ((⟨(out.outsect s).foff.toNat, file⟩ : Piece).append (out.emits s).full
      (out.emits s).bytes).bytes)
    (fun _ => 0)

end AckFormal.Led
