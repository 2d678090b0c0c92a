import AckFormal.Led.LinkTotal

/-!
# led out of core

When an allocation fails in pass 1, only the headers and names of the modules and the global
names are kept.  Pass 2 reads each module again: section by section, and a section that finds no
room in blocks.  What is relocated is written at once, and so are the local names.
-/

namespace AckFormal.Led

/-! ## Pass 1 -/

/-- `extract` without the section contents. -/
def extractNames (flags : Flags) (scan : Scan) (modul : Module) : Option Scan := do
  let modul := directAlloc modul
  let scan ← getNames flags scan modul
  some (process scan modul)

def firstPassNames (flags : Flags) (undefs : List Str) (moduls : List Module) : Option Scan :=
  moduls.foldlM (extractNames flags) (Scan.initial undefs)

/-- The strings that `savechar` has put in `ALLOGCHR`, and those among them that `entername`
has entered in the symbol table. -/
structure StringArea where
  saved : List Str
  entered : List Str

/-- The string that a name of type `S_CRS` refers to comes before its own. -/
def StringArea.name (area : StringArea) (name : Name) : StringArea :=
  let saved := if styp name.type = sCrs then area.saved ++ [name.crs] else area.saved
  if isExt name.type && !area.entered.contains name.str then
    ⟨saved ++ [name.str], area.entered ++ [name.str]⟩
  else { area with saved := saved }

def stringArea (undefs : List Str) (moduls : List Module) : StringArea :=
  ((undefs.map fun string => (⟨string, 0x80#16, 0, 0, []⟩ : Name)) ++
    moduls.flatMap Module.names).foldl StringArea.name ⟨[], []⟩

/-- The string at an offset in `ALLOGCHR`, of which the first byte is not used. -/
def StringArea.address (area : StringArea) (off : Nat) : Option Str :=
  let rest := (area.saved.flatMap (· ++ [0])).drop (off - 1)
  if off = 0 ∨ rest = [] then none else some (rest.takeWhile (· ≠ 0))

/-! ## Pass 2 -/

/-- `do_crs` in `adjust_names`: the value of the name is the one in the file. -/
def adjustName (plan : Plan) (area : StringArea) (name : Name) : Option Name :=
  if styp name.type = sCrs then
    (area.address name.valu.toNat).bind fun s => doCrs plan { name with crs := s }
  else some name

def putLocals (plan : Plan) (relorig : Nat → Int) (names : List Name) : Option (List Name) :=
  if plan.flags.sflag then some []
  else (names.filter fun name => !isExt name.type && name.mustsavelocal).mapM fun name =>
    (namerelocate relorig name).map (addbase plan.outsect)

/-- What is written so far of the sections, relocations and local names, with the origins and the
zeros that are owed to the sections. -/
structure Written where
  relorig : Nat → Int
  zeros : Nat → Nat
  emits : Nat → Piece
  relos : List Relo
  names : List Name

/-- A part of a section that is in core at one time, with the relocations for it. -/
structure Block where
  off : Nat
  size : Nat
  relos : List Relo

/-- The size that `getblk` gets room for. -/
def getblk (room : Nat → Bool) (total : Nat) : Option Nat :=
  ((List.range 31).reverse.map (2 ^ ·)).find? fun sz => sz < total && room sz

/-- The whole section if there is room for it. -/
def blocks (room : Nat → Bool) (flen : Nat) (relos : List Relo) : Option (List Block) :=
  if room flen then some [⟨0, flen, relos⟩]
  else (getblk room flen).map fun blksz =>
    (List.range ((flen + blksz - 1) / blksz)).map fun j =>
      let size := min blksz (flen - j * blksz)
      ⟨j * blksz, size, relos.filter fun relo =>
        j * blksz ≤ relo.addr.toNat ∧ relo.addr.toNat < j * blksz + size⟩

/-- Reading or writing a field outside the block is undefined. -/
def relocateIn (plan : Plan) (relorig : Nat → Int) (names : List Name) (block : Block)
    (state : Core × List Relo) (relo : Relo) : Option (Core × List Relo) :=
  let position := relo.addr.toNat - block.off
  if position + extent (window state.1 position) relo.type ≤ block.size then
    (relocate plan relorig names state.1 relo block.off).map fun (relo, emit) =>
      (emit, state.2 ++ [relo])
  else none

def emitBlock (plan : Plan) (names : List Name) (s : Nat) (contents : Core) (state : Written)
    (block : Block) : Option Written := do
  let (emit, relos) ← block.relos.foldlM (relocateIn plan state.relorig names block)
    (window contents block.off, [])
  some { state with
    emits := Function.update state.emits s ((state.emits s).append block.size emit)
    relos := if plan.flags.cflag || plan.flags.rflag then state.relos ++ relos else state.relos }

/-- The bytes of a section, behind the zeros that are owed. -/
def emitBytes (plan : Plan) (room : Nat → Nat → Bool) (modul : Module) (names : List Name)
    (state : Written) (s : Nat) : Option Written :=
  let sect := modul.sects.getD s default
  if sect.flen = 0#32 then some state
  else
    (blocks (room s) sect.flen.toNat
      (modul.relos.filter fun relo => relo.sect.toNat = s + sMin)).bind fun list =>
        list.foldlM (emitBlock plan names s sect.contents)
          { state with
            emits := Function.update state.emits s
              ((state.emits s).append (state.zeros s) fun _ => 0)
            zeros := Function.update state.zeros s 0 }

def emitSection (plan : Plan) (room : Nat → Nat → Bool) (modul : Module) (names : List Name)
    (state : Written) (s : Nat) : Option Written :=
  let sect := modul.sects.getD s default
  (emitBytes plan room modul names state s).map fun state =>
    { state with
      zeros := Function.update state.zeros s (state.zeros s + (sect.size - sect.flen).toNat) }

/-- `finish` for a module; `room` tells for which sizes `core_alloc` finds room in the turn of a
section. -/
def finishModul (plan : Plan) (area : StringArea) (room : Nat → Nat → Nat → Bool)
    (state : Written) (modul : Module × Nat) : Option Written := do
  let read := directAlloc modul.1
  let names ← read.names.mapM (adjustName plan area)
  let state ← (List.range read.sects.length).foldlM
    (emitSection plan (room modul.2) read names) state
  let locals ← putLocals plan state.relorig names
  some { state with
    names := state.names ++ locals
    relorig := computeOrigins state.relorig read }

def secondPassFiles (plan : Plan) (area : StringArea) (room : Nat → Nat → Nat → Bool) (scan : Scan)
    (moduls : List Module) : Option Written :=
  moduls.zipIdx.foldlM (finishModul plan area room)
    ⟨fun s => if s < scan.nsect then 0 else scan.relorig s, fun _ => 0,
      fun _ => ⟨0, fun _ => 0⟩, [], []⟩

def writtenOutput (flags : Flags) (scan : Scan) (plan : Plan) (state : Written) : Output where
  nsect := plan.nsect
  nrelo := if plan.flags.cflag || plan.flags.rflag then scan.nrelo else 0
  nname := if plan.flags.sflag then 0 else
    plan.nlocals + plan.globals.nglobals + BitVec.ofNat 16 plan.nsect
  nemit := scan.nemit
  outsect := plan.outsect
  emits := state.emits
  relos := state.relos
  names := if plan.flags.sflag then [] else
    state.names ++ (plan.globals.names.take plan.globals.nglobals.toNat ++ sectionNames plan)
  symbols := plan.globals
  removed := scan.tables.nerrors ≠ 0#16
  status := stopStatus flags scan.tables

/-- The first pass in core, or out of core with the room that is left in pass 2. -/
def scanWith (core : Option (Nat → Nat → Nat → Bool)) (flags : Flags) (undefs : List Str)
    (moduls : List Module) : Option Scan :=
  match core with
  | none => firstPass flags undefs moduls
  | some _ => firstPassNames flags undefs moduls

def linkWith (core : Option (Nat → Nat → Nat → Bool)) (flags : Flags) (undefs : List Str)
    (moduls : List Module) : Option Output :=
  match core with
  | none => link flags undefs moduls
  | some room => do
    let scan ← firstPassNames flags undefs moduls
    let plan ← evaluate flags scan
    let state ← secondPassFiles plan (stringArea undefs moduls) room scan moduls
    some (writtenOutput flags scan plan state)

/-! ## The two first passes -/

def Scan.names (scan : Scan) : Scan :=
  { scan with zeros := fun _ => 0, emits := fun _ => ⟨0, fun _ => 0⟩, saved := [] }

section Scans

variable {flags : Flags} {undefs : List Str} {moduls : List Module} {scan scan' : Scan}
  {modul : Module}

theorem extract_names (ran : extract flags scan modul = some scan') :
    extractNames flags scan.names modul = some scan'.names := by
  obtain ⟨scanned, read, rest⟩ := Option.bind_eq_some_iff.mp ran
  obtain ⟨named, didNames, done⟩ := Option.bind_eq_some_iff.mp rest
  obtain ⟨tables, collected, sameNamed⟩ := Option.bind_eq_some_iff.mp didNames
  unfold scanModul at read
  split at read
  · cases read
    cases sameNamed
    cases done
    have gathered : (directAlloc modul).names.foldlM (getName flags.sflag scan.names.relorig)
        scan.names.tables = some tables := collected
    simp only [extractNames, getNames, gathered, Option.bind_eq_bind, Option.bind_some]
    rfl
  · cases read

/-- Where pass 1 stays in core it finds the same names out of core. -/
theorem firstPass_names (ran : firstPass flags undefs moduls = some scan) :
    firstPassNames flags undefs moduls = some scan.names := by
  have general : ∀ (list : List Module) (before : Scan),
      list.foldlM (extract flags) before = some scan →
      list.foldlM (extractNames flags) before.names = some scan.names := by
    intro list
    induction list with
    | nil =>
      intro before ran
      cases ran
      rfl
    | cons modul rest ih =>
      intro before ran
      obtain ⟨middle, extracted, later⟩ := Option.bind_eq_some_iff.mp ran
      rw [List.foldlM_cons, extract_names extracted]
      exact ih middle later
  exact general moduls (Scan.initial undefs) ran

theorem firstPassNames_base (ran : firstPassNames flags undefs moduls = some scan) (s : Nat) :
    (scan.outsect s).base = 0 := by
  refine Lib.foldlM_invariant (fun _ scan => ∀ s, (scan.outsect s).base = 0) (fun _ => rfl) ?_ ran s
  intro done modul before after _ zero read s
  obtain ⟨named, didNames, done⟩ := Option.bind_eq_some_iff.mp read
  obtain ⟨tables, -, sameNamed⟩ := Option.bind_eq_some_iff.mp didNames
  cases sameNamed
  cases done
  simp only [process]
  split
  · exact zero s
  · exact zero s

end Scans

/-! ## One block -/

section One

variable {plan : Plan} {relorig : Nat → Int} {names : List Name} {block : Block}

/-- A relocation of a block as a relocation of a module that is nothing but the block. -/
def blockJob (relorig : Nat → Int) (names : List Name) (off : Nat) (relo : Relo) : Job where
  saved := ⟨⟨[], [], names, 0⟩, fun _ => 0⟩
  origin := relorig
  relo := { relo with addr := relo.addr - BitVec.ofNat 32 off }

variable (relorig names) in
theorem blockJob_position {off : Nat} {relo : Relo} (from_ : off ≤ relo.addr.toNat) :
    (blockJob relorig names off relo).position = relo.addr.toNat - off := by
  have small : (BitVec.ofNat 32 off).toNat = off :=
    Nat.mod_eq_of_lt (Nat.lt_of_le_of_lt from_ relo.addr.isLt)
  have less : BitVec.ofNat 32 off ≤ relo.addr := by
    rw [BitVec.le_def, small]
    exact from_
  simp only [Job.position, blockJob, BitVec.toNat_sub_of_le less, small, Nat.zero_add]

theorem blockJob_run {off s : Nat} {relo relo' : Relo} {emits : Nat → Core} {emit : Core}
    (from_ : off ≤ relo.addr.toNat) (here : relo.sect.toNat - sMin = s)
    (ran : relocate plan relorig names (emits s) relo off = some (relo', emit)) :
    ((blockJob relorig names off relo).run plan emits).map Prod.snd =
      some (Function.update emits s emit) := by
  subst here
  obtain ⟨old, nami, target, field, read, found, written, -, rfl⟩ := relocate_some ran
  have position := blockJob_position relorig names from_
  rw [← position] at read written ⊢
  rw [Job.run_of read found written]
  rfl

theorem relocateIn_some {relo : Relo} {state state' : Core × List Relo}
    (ran : relocateIn plan relorig names block state relo = some state') :
    relo.addr.toNat - block.off +
        extent (window state.1 (relo.addr.toNat - block.off)) relo.type ≤ block.size ∧
      ∃ changed, relocate plan relorig names state.1 relo block.off = some (changed, state'.1) := by
  unfold relocateIn at ran
  dsimp only at ran
  split at ran
  · rename_i fits
    obtain ⟨⟨changed, emit⟩, relocated, rfl⟩ := Option.map_eq_some_iff.mp ran
    exact ⟨fits, changed, relocated⟩
  · cases ran

/-- The relocations of a block are the jobs of the block, on a store with the block in it. -/
theorem relocateIn_jobs {s : Nat} {relos : List Relo} {state state' : Core × List Relo}
    (from_ : ∀ relo ∈ relos, block.off ≤ relo.addr.toNat)
    (here : ∀ relo ∈ relos, relo.sect.toNat - sMin = s)
    (ran : relos.foldlM (relocateIn plan relorig names block) state = some state')
    (emits : Nat → Core) (holds : emits s = state.1) :
    ∃ after, (relos.map (blockJob relorig names block.off)).foldlM
        (fun emits job => (job.run plan emits).map Prod.snd) emits = some after ∧
      after s = state'.1 := by
  induction relos generalizing state emits with
  | nil =>
    cases ran
    exact ⟨emits, rfl, holds⟩
  | cons relo rest ih =>
    obtain ⟨middle, stepped, later⟩ := Option.bind_eq_some_iff.mp ran
    obtain ⟨-, changed, relocated⟩ := relocateIn_some stepped
    rw [← holds] at relocated
    have job := blockJob_run (from_ relo List.mem_cons_self) (here relo List.mem_cons_self) relocated
    obtain ⟨after, folded, final⟩ := ih
      (fun other member => from_ other (List.mem_cons_of_mem _ member))
      (fun other member => here other (List.mem_cons_of_mem _ member)) later
      (Function.update emits s middle.1) (Function.update_self _ _ _)
    refine ⟨after, ?_, final⟩
    rw [List.map_cons, List.foldlM_cons, job]
    exact folded

/-- Every relocation was inside of the block when it was made. -/
theorem relocateIn_inside {relos : List Relo} {state state' : Core × List Relo}
    (ran : relos.foldlM (relocateIn plan relorig names block) state = some state') {relo : Relo}
    (member : relo ∈ relos) :
    ∃ emit, relo.addr.toNat - block.off +
      extent (window emit (relo.addr.toNat - block.off)) relo.type ≤ block.size := by
  induction relos generalizing state with
  | nil => cases member
  | cons first rest ih =>
    obtain ⟨middle, stepped, later⟩ := Option.bind_eq_some_iff.mp ran
    rcases List.mem_cons.mp member with rfl | inRest
    · exact ⟨state.1, (relocateIn_some stepped).1⟩
    · exact ih later inRest

/-- The relocations of a section of a module that are in a block. -/
structure Block.Within (block : Block) (modul : Module) (s : Nat) : Prop where
  relos : block.relos.Sublist modul.relos
  sect : ∀ relo ∈ block.relos, relo.sect.toNat = s + sMin
  off : ∀ relo ∈ block.relos, block.off ≤ relo.addr.toNat

variable {modul : Module} {s : Nat}

theorem Block.Within.mem_foot (within : block.Within modul s) {relo : Relo}
    (member : relo ∈ block.relos) {x : Nat × Nat} :
    x ∈ (blockJob relorig names block.off relo).foot
        (fun _ => window (modul.sect s).contents block.off) ↔
      x.1 = s ∧ (s, block.off + x.2) ∈ modul.field relo := by
  have place := blockJob_position relorig names (within.off relo member)
  have sect := within.sect relo member
  have at_ : relo.sect.toNat - sMin = s := by omega
  have from_ := within.off relo member
  have there : block.off + (relo.addr.toNat - block.off) = relo.addr.toNat := by omega
  simp only [Job.foot, Module.field, Set.mem_ofPred_eq, place, window_window, there, at_]
  have sectindex : (blockJob relorig names block.off relo).sectindex = s := at_
  rw [sectindex]
  constructor
  · rintro ⟨rfl, low, high⟩
    exact ⟨rfl, trivial, by omega, by simp only [blockJob] at high; omega⟩
  · rintro ⟨rfl, -, low, high⟩
    exact ⟨rfl, by omega, by simp only [blockJob]; omega⟩

/-- What is left in the field of a relocation when the block is written. -/
theorem Block.Within.fields (within : block.Within modul s) (good : modul.WellFormed)
    {emit : Core} {made : List Relo}
    (ran : block.relos.foldlM (relocateIn plan relorig names block)
      (window (modul.sect s).contents block.off, []) = some (emit, made))
    {relo : Relo} (member : relo ∈ block.relos) :
    let original := window (modul.sect s).contents relo.addr.toNat
    ∃ old nami target field, getvalu original relo.type = some old ∧
      refer plan relorig names relo 0 = some (nami, target) ∧
      putvalu (BitVec.ofInt 32 ((old.toNat : Int) + target - pcOrigin plan relorig relo))
        original relo.type = some field ∧
      Agree (extent original relo.type) field (window emit (relo.addr.toNat - block.off)) := by
  have here : ∀ relo ∈ block.relos, relo.sect.toNat - sMin = s := fun relo member => by
    have sect := within.sect relo member
    omega
  obtain ⟨after, folded, final⟩ := relocateIn_jobs within.off here ran
    (fun _ => window (modul.sect s).contents block.off) rfl
  have apart : (block.relos.map (blockJob relorig names block.off)).Pairwise fun a b =>
      Disjoint (a.foot fun _ => window (modul.sect s).contents block.off)
        (b.foot fun _ => window (modul.sect s).contents block.off) := by
    rw [List.pairwise_map]
    refine (good.apart.sublist within.relos).imp_of_mem ?_
    intro a b inA inB disjoint
    rw [Set.disjoint_left]
    intro x inFirst inSecond
    exact Set.disjoint_left.mp disjoint ((within.mem_foot inA).mp inFirst).2
      ((within.mem_foot inB).mp inSecond).2
  obtain ⟨-, settled⟩ := Lib.foldlM_confined (fun job _ => Job.confined plan _ job) apart
    (fun _ _ => Set.eqOn_refl _ _) folded
  obtain ⟨alone, ranAlone, left⟩ := settled _ (List.mem_map_of_mem member)
  obtain ⟨⟨changed, emits⟩, ranJob, rfl⟩ := Option.map_eq_some_iff.mp ranAlone
  obtain ⟨old, nami, target, field, read, found, written, -, rfl⟩ := Job.run_some ranJob
  have position := blockJob_position relorig names (within.off relo member)
  have there : block.off + (relo.addr.toNat - block.off) = relo.addr.toNat := by
    have from_ := within.off relo member
    omega
  rw [position, window_window, there] at read written
  refine ⟨old, nami, target, field, read, found, written, ?_⟩
  intro i bound
  have sectindex : (blockJob relorig names block.off relo).sectindex = s := here relo member
  have inFoot : (s, relo.addr.toNat - block.off + i) ∈
      (blockJob relorig names block.off relo).foot
        fun _ => window (modul.sect s).contents block.off := by
    rw [within.mem_foot member]
    refine ⟨rfl, (here relo member).symm, ?_, ?_⟩
    · simp only
      omega
    · simp only [here relo member]
      omega
  have byte := left inFoot
  simp only [Job.view, sectindex, Function.update_self, graft, position, final] at byte
  rw [window, byte, if_neg (by omega), Nat.add_sub_cancel_left]

end One

/-! ## All blocks -/

section Blocks

variable {modul : Module} {room : Nat → Bool} {s : Nat} {list : List Block}

theorem blocks_within
    (made : blocks room (modul.flen s) (modul.relos.filter fun relo => relo.sect.toNat = s + sMin) =
      some list) : ∀ block ∈ list, block.Within modul s := by
  intro block member
  have sect : ∀ relo ∈ modul.relos.filter fun relo => relo.sect.toNat = s + sMin,
      relo.sect.toNat = s + sMin := fun relo inSection => by
    simpa using (List.mem_filter.mp inSection).2
  unfold blocks at made
  split at made
  · cases made
    rw [List.mem_singleton.mp member]
    exact ⟨List.filter_sublist, sect, fun _ _ => Nat.zero_le _⟩
  · obtain ⟨blksz, -, rfl⟩ := Option.map_eq_some_iff.mp made
    obtain ⟨j, -, rfl⟩ := List.mem_map.mp member
    refine ⟨List.filter_sublist.trans List.filter_sublist,
      fun relo inBlock => sect relo (List.mem_filter.mp inBlock).1, fun relo inBlock => ?_⟩
    have bounds := (List.mem_filter.mp inBlock).2
    simp only [decide_eq_true_eq] at bounds
    exact bounds.1

theorem getblk_pos {total blksz : Nat} (found : getblk room total = some blksz) : 0 < blksz := by
  obtain ⟨j, -, rfl⟩ := List.mem_map.mp (List.mem_of_find?_eq_some found)
  exact Nat.two_pow_pos j

/-- Every relocation in the bytes of a section is in one of its blocks. -/
theorem blocks_cover {flen : Nat} {relos : List Relo} (made : blocks room flen relos = some list)
    {relo : Relo} (member : relo ∈ relos) (inside : relo.addr.toNat < flen) :
    ∃ block ∈ list, relo ∈ block.relos := by
  unfold blocks at made
  split at made
  · cases made
    exact ⟨_, List.mem_singleton_self _, member⟩
  · obtain ⟨blksz, found, rfl⟩ := Option.map_eq_some_iff.mp made
    have positive := getblk_pos found
    have split := Nat.div_add_mod relo.addr.toNat blksz
    have rest := Nat.mod_lt relo.addr.toNat positive
    rw [Nat.mul_comm] at split
    refine ⟨_, List.mem_map_of_mem (a := relo.addr.toNat / blksz) (List.mem_range.mpr ?_), ?_⟩
    · rw [Nat.div_lt_iff_lt_mul positive]
      have up := Nat.div_add_mod (flen + blksz - 1) blksz
      have less := Nat.mod_lt (flen + blksz - 1) positive
      rw [Nat.mul_comm] at up
      omega
    · refine List.mem_filter.mpr ⟨member, ?_⟩
      simp only [decide_eq_true_eq]
      omega

end Blocks

/-! ## What a relocation reads of a name -/

/-- The type and the string of a name; `relocate` does not look at its value. -/
def Name.reference (name : Name) : BitVec 16 × Str := (name.type, name.str)

section Reference

variable {plan : Plan} {names names' : List Name}
  (same : names.map Name.reference = names'.map Name.reference)
include same

theorem refer_congr (relorig : Nat → Int) (relo : Relo) (valu : Int) :
    refer plan relorig names relo valu = refer plan relorig names' relo valu := by
  have one := congrArg (fun list => list[relo.nami.toNat]?) same
  simp only [List.getElem?_map] at one
  unfold refer
  cases here : names[relo.nami.toNat]? with
  | none =>
    rw [here] at one
    rw [Option.map_eq_none_iff.mp one.symm]
  | some name =>
    rw [here] at one
    obtain ⟨name', here', both⟩ := Option.map_eq_some_iff.mp one.symm
    rw [here']
    obtain ⟨type, str⟩ := Prod.mk.inj both
    simp only [addrelo, type, str]

theorem relocate_congr (relorig : Nat → Int) (emit : Core) (relo : Relo) (off : Nat) :
    relocate plan relorig names emit relo off = relocate plan relorig names' emit relo off := by
  unfold relocate
  simp only [refer_congr same]

end Reference

/-! ## What is written stays -/

def Written.Grown (state after : Written) : Prop :=
  ∀ s, (state.emits s).full ≤ (after.emits s).full ∧
    Agree (state.emits s).full (state.emits s).bytes (after.emits s).bytes

theorem Written.Grown.refl (state : Written) : state.Grown state :=
  fun _ => ⟨Nat.le_refl _, Agree.refl _ _⟩

theorem Written.Grown.trans {first second third : Written} (one : first.Grown second)
    (two : second.Grown third) : first.Grown third :=
  fun s => ⟨Nat.le_trans (one s).1 (two s).1, fun i bound =>
    ((one s).2 i bound).trans ((two s).2 i (Nat.lt_of_lt_of_le bound (one s).1))⟩

structure Written.Alike (state state' : Written) : Prop where
  relorig : state'.relorig = state.relorig
  zeros : state'.zeros = state.zeros
  full : ∀ s, (state'.emits s).full = (state.emits s).full

section Growing

variable {plan plan' : Plan} {area : StringArea} {modul : Module} {names names' : List Name} {s : Nat}
  {contents : Core} {block : Block} {state state' after after' : Written}

theorem append_grown (state : Written) (s n : Nat) (contents : Core) {after : Written}
    (emits : after.emits = Function.update state.emits s ((state.emits s).append n contents)) :
    state.Grown after := by
  intro t
  rw [emits]
  by_cases same : t = s
  · subst same
    rw [Function.update_self]
    exact ⟨Nat.le_add_right _ _, fun i bound => (Piece.append_below bound).symm⟩
  · rw [Function.update_of_ne same]
    exact ⟨Nat.le_refl _, Agree.refl _ _⟩

/-- What is appended is at its place at the end. -/
theorem Written.Grown.appended {n : Nat} (grown : state'.Grown after)
    (emits : state'.emits = Function.update state.emits s ((state.emits s).append n contents))
    {i : Nat} (bound : i < n) :
    (state.emits s).full + i < (after.emits s).full ∧
      (after.emits s).bytes ((state.emits s).full + i) = contents i := by
  obtain ⟨more, kept⟩ := grown s
  rw [emits, Function.update_self] at more kept
  have inPiece : (state.emits s).full + i < ((state.emits s).append n contents).full :=
    Nat.add_lt_add_left bound _
  refine ⟨Nat.lt_of_lt_of_le inPiece more, ?_⟩
  rw [← kept _ inPiece]
  exact Piece.append_inside bound

theorem append_alike (alike : state.Alike state') (s n : Nat) (contents contents' : Core)
    (t : Nat) :
    (Function.update state'.emits s ((state'.emits s).append n contents') t).full =
      (Function.update state.emits s ((state.emits s).append n contents) t).full := by
  by_cases same : t = s
  · subst same
    simp only [Function.update_self, Piece.append, alike.full]
  · simp only [Function.update_of_ne same, alike.full]

/-- What is in the block is what is written behind the bytes that are there. -/
theorem emitBlock_some (ran : emitBlock plan names s contents state block = some after) :
    ∃ emit made, block.relos.foldlM (relocateIn plan state.relorig names block)
        (window contents block.off, []) = some (emit, made) ∧
      after.emits = Function.update state.emits s ((state.emits s).append block.size emit) ∧
      after.relorig = state.relorig ∧ after.zeros = state.zeros := by
  obtain ⟨⟨emit, made⟩, relocated, done⟩ := Option.bind_eq_some_iff.mp ran
  cases done
  exact ⟨emit, made, relocated, rfl, rfl, rfl⟩

theorem emitBlock_grown (ran : emitBlock plan names s contents state block = some after) :
    state.Grown after := by
  obtain ⟨emit, made, -, emits, -, -⟩ := emitBlock_some ran
  exact append_grown state s block.size emit emits

theorem emitBlock_alike (alike : state.Alike state')
    (ran : emitBlock plan names s contents state block = some after)
    (ran' : emitBlock plan' names' s contents state' block = some after') :
    after.Alike after' := by
  obtain ⟨emit, made, -, emits, relorig, zeros⟩ := emitBlock_some ran
  obtain ⟨emit', made', -, emits', relorig', zeros'⟩ := emitBlock_some ran'
  refine ⟨by rw [relorig, relorig', alike.relorig], by rw [zeros, zeros', alike.zeros], ?_⟩
  intro t
  rw [emits, emits']
  exact append_alike alike s block.size emit emit' t

theorem Written.Alike.refl (state : Written) : state.Alike state := ⟨rfl, rfl, fun _ => rfl⟩

/-- A turn of both runs for a section: its blocks are written in the same places. -/
theorem emitSection_pair {room : Nat → Nat → Bool} (alike : state.Alike state')
    (ran : emitSection plan room (directAlloc modul) names state s = some after)
    (ran' : emitSection plan' room (directAlloc modul) names' state' s = some after') :
    after.Alike after' ∧ state.Grown after ∧ state'.Grown after' ∧
      (modul.flen s ≠ 0 → ∃ list, blocks (room s) (modul.flen s)
          (modul.relos.filter fun relo => relo.sect.toNat = s + sMin) = some list ∧
        ∀ block ∈ list, ∃ m m' t t', Written.Alike m m' ∧
          emitBlock plan names s (modul.sect s).contents m block = some t ∧
          emitBlock plan' names' s (modul.sect s).contents m' block = some t' ∧
          t.Grown after ∧ t'.Grown after') := by
  have relos : (directAlloc modul).relos = modul.relos := rfl
  unfold emitSection emitBytes at ran ran'
  simp only [directAlloc_getD, rounded_flen, rounded_contents, relos] at ran ran'
  obtain ⟨middle, emitted, rfl⟩ := Option.map_eq_some_iff.mp ran
  obtain ⟨middle', emitted', rfl⟩ := Option.map_eq_some_iff.mp ran'
  by_cases empty : (modul.sect s).flen = 0#32
  · rw [if_pos empty] at emitted emitted'
    cases emitted
    cases emitted'
    refine ⟨⟨alike.relorig, ?_, alike.full⟩, fun _ => ⟨Nat.le_refl _, Agree.refl _ _⟩,
      fun _ => ⟨Nat.le_refl _, Agree.refl _ _⟩, fun bytes => absurd ?_ bytes⟩
    · simp only [alike.zeros]
    · rw [Module.flen, empty]
      rfl
  · rw [if_neg empty] at emitted emitted'
    obtain ⟨list, made, folded⟩ := Option.bind_eq_some_iff.mp emitted
    obtain ⟨list', made', folded'⟩ := Option.bind_eq_some_iff.mp emitted'
    cases made.symm.trans made'
    have zeroed : Written.Alike
        { state with
          emits := Function.update state.emits s ((state.emits s).append (state.zeros s) fun _ => 0)
          zeros := Function.update state.zeros s 0 }
        { state' with
          emits := Function.update state'.emits s
            ((state'.emits s).append (state'.zeros s) fun _ => 0)
          zeros := Function.update state'.zeros s 0 } := by
      refine ⟨alike.relorig, by simp only [alike.zeros], fun t => ?_⟩
      rw [alike.zeros]
      exact append_alike alike s _ _ _ t
    obtain ⟨ends, grown, grown', each⟩ := Lib.foldlM_pair folded folded' Written.Alike
      Written.Grown .refl .trans (fun _ stepped => stepped.elim emitBlock_grown emitBlock_grown)
      (fun _ alike stepped stepped' => emitBlock_alike alike stepped stepped') zeroed
    refine ⟨⟨ends.relorig, ?_, ends.full⟩,
      (append_grown state s _ (fun _ => 0) rfl).trans grown,
      (append_grown state' s _ (fun _ => 0) rfl).trans grown',
      fun _ => ⟨list, made, each⟩⟩
    simp only [ends.zeros]

theorem emitSection_grown {room : Nat → Nat → Bool}
    (ran : emitSection plan room (directAlloc modul) names state s = some after) :
    state.Grown after :=
  (emitSection_pair (.refl state) ran ran).2.1

/-- A module is finished in both runs with the same sections. -/
theorem finishModul_pair {room : Nat → Nat → Nat → Bool} {k : Nat} (alike : state.Alike state')
    (ran : finishModul plan area room state (modul, k) = some after)
    (ran' : finishModul plan' area room state' (modul, k) = some after') :
    after.Alike after' ∧ state.Grown after ∧ state'.Grown after' ∧
      ∃ names names', modul.names.mapM (adjustName plan area) = some names ∧
        modul.names.mapM (adjustName plan' area) = some names' ∧
        ∀ s < modul.sects.length, ∃ m m' t t', Written.Alike m m' ∧
          emitSection plan (room k) (directAlloc modul) names m s = some t ∧
          emitSection plan' (room k) (directAlloc modul) names' m' s = some t' ∧
          t.Grown after ∧ t'.Grown after' := by
  obtain ⟨names, adjusted, rest⟩ := Option.bind_eq_some_iff.mp ran
  obtain ⟨names', adjusted', rest'⟩ := Option.bind_eq_some_iff.mp ran'
  obtain ⟨middle, emitted, later⟩ := Option.bind_eq_some_iff.mp rest
  obtain ⟨middle', emitted', later'⟩ := Option.bind_eq_some_iff.mp rest'
  obtain ⟨locals, put, done⟩ := Option.bind_eq_some_iff.mp later
  obtain ⟨locals', put', done'⟩ := Option.bind_eq_some_iff.mp later'
  obtain ⟨ends, grown, grown', each⟩ := Lib.foldlM_pair emitted emitted' Written.Alike
    Written.Grown .refl .trans (fun _ stepped => stepped.elim emitSection_grown emitSection_grown)
    (fun _ alike stepped stepped' => (emitSection_pair alike stepped stepped').1) alike
  cases done
  cases done'
  refine ⟨⟨by simp only [ends.relorig], ends.zeros, ends.full⟩, grown, grown', names, names',
    adjusted, adjusted', fun s present => each s (List.mem_range.mpr ?_)⟩
  simpa [directAlloc_length] using present

theorem finishModul_grown {room : Nat → Nat → Nat → Bool} {one : Module × Nat}
    (ran : finishModul plan area room state one = some after) : state.Grown after :=
  (finishModul_pair (.refl state) ran ran).2.1

end Growing

end AckFormal.Led
