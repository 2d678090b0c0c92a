import AckFormal.Led.Evaluate
import AckFormal.Led.Relocation

/-!
# Well-formed modules and what led makes of them

The names and the fields of a module are in its own sections, and its fields do not
overlap.  As long as the sizes, the offsets in the file and the numbers of names fit
their fields, modules and fields stay apart in the output.
-/

namespace AckFormal.Led

/-! ## Conditions on the input -/

/-- The bytes of the field that a relocation is about, in its module. -/
def Module.field (modul : Module) (relo : Relo) : Set (Nat × Nat) :=
  { x | x.1 = relo.sect.toNat - sMin ∧ relo.addr.toNat ≤ x.2 ∧
    x.2 < relo.addr.toNat + extent
      (window (modul.sect (relo.sect.toNat - sMin)).contents relo.addr.toNat) relo.type }

structure Module.WellFormed (modul : Module) : Prop where
  few : modul.sects.length ≤ maxsect
  counts : modul.relos.length < 65536 ∧ modul.names.length < 65536
  flen : ∀ s, modul.flen s ≤ (modul.sect s).size.toNat
  nemit : modul.nemit = BitVec.ofNat 32 (modul.sects.map (fun sect => sect.flen.toNat)).sum
  -- a name with a value in a section is in a section of the module
  located : ∀ name ∈ modul.names, name.located = true →
    styp name.type - sMin < modul.sects.length
  -- only debugging names take their value from another name
  crs : ∀ name ∈ modul.names, isExt name.type = true → styp name.type ≠ sCrs
  -- commons are external and belong to a section
  common : ∀ name ∈ modul.names, isCom name.type = true →
    (isExt name.type = true ↔ sMin ≤ styp name.type ∧ styp name.type < sCrs)
  -- a relocation is in a section of the module and its field in the bytes of it
  inside : ∀ relo ∈ modul.relos, sMin ≤ relo.sect.toNat ∧
    relo.sect.toNat - sMin < modul.sects.length ∧
    ∀ x ∈ modul.field relo, x.2 < modul.flen x.1
  -- it refers to a section or an external name
  refers : ∀ relo ∈ modul.relos, ∀ name, modul.names[relo.nami.toNat]? = some name →
    (isSct name.type = true ∧ sMin ≤ styp name.type ∧
      styp name.type - sMin < modul.sects.length) ∨
    (isSct name.type = false ∧ isExt name.type = true)
  apart : modul.relos.Pairwise fun a b => Disjoint (modul.field a) (modul.field b)

def globalStrings (undefs : List Str) (moduls : List Module) : List Str :=
  undefs ++ ((moduls.flatMap Module.names).filter fun name => isExt name.type).map Name.str

def sectionCount (moduls : List Module) : Nat :=
  (moduls.map fun modul => modul.sects.length).foldr max 0

def roundUp (size lign : Nat) : Nat :=
  if lign ≤ 1 then size else (size + lign - 1) / lign * lign

/-- The rounded sizes of the modules before a module add up to this. -/
def offset (before : List Module) (s : Nat) : Nat :=
  (before.map fun modul =>
    roundUp (modul.sect s).size.toNat (modul.sect s).lign.toNat).sum

/-- No number of led wraps: no rounded size, no offset of a section with bytes, not the sum of all
bytes, and neither `NLocals` nor `NGlobals`. -/
structure Fits (flags : Flags) (undefs : List Str) (moduls : List Module) : Prop where
  rounding : ∀ modul ∈ moduls, ∀ s, (modul.sect s).lign.toNat ≤ 1 ∨
    (modul.sect s).size.toNat + (modul.sect s).lign.toNat - 1 < 4294967296
  foff : ∀ s, stop moduls s ≠ 0 → szHead + sectionCount moduls * szSect +
    ((List.range s).map (stop moduls)).sum < 4294967296
  nemit : ((List.range maxsect).map (stop moduls)).sum < 4294967296
  locals : (savedLocals flags.sflag (moduls.flatMap Module.names)).length < 65536
  globals : (globalStrings undefs moduls).dedup.length < 65536

/-- The sum that is put into `oh_nname`, which is not formed with `-s`, does not wrap. -/
def NamesFit (flags : Flags) (undefs : List Str) (moduls : List Module) : Prop :=
  flags.sflag = false → (savedLocals flags.sflag (moduls.flatMap Module.names)).length +
    (globalStrings undefs moduls).dedup.length + sectionCount moduls < 65536

def AllDefined (undefs : List Str) (moduls : List Module) : Prop :=
  ∀ string ∈ globalStrings undefs moduls, ∃ modul ∈ moduls, ∃ name ∈ modul.names,
    isExt name.type = true ∧ name.str = string ∧ name.isUndefined = false

def SingleDefined (moduls : List Module) : Prop :=
  (moduls.flatMap Module.names).Pairwise fun a b =>
    ¬(a.defines = true ∧ b.defines = true ∧ a.str = b.str)

/-! ## Places -/

theorem rounded_toNat {sect : Sect}
    (fits : sect.lign.toNat ≤ 1 ∨ sect.size.toNat + sect.lign.toNat - 1 < 4294967296) :
    sect.rounded.size.toNat = roundUp sect.size.toNat sect.lign.toNat := by
  simp only [Sect.rounded, roundUp, BitVec.lt_def, BitVec.toNat_ofNat]
  by_cases small : sect.lign.toNat ≤ 1
  · rw [if_neg (by omega), if_pos small]
  · have sum := fits.resolve_left small
    rw [if_pos (by omega), if_neg small]
    have lign : (sect.lign - 1#32).toNat = sect.lign.toNat - 1 := by
      rw [BitVec.toNat_sub_of_le (by simp only [BitVec.le_def, BitVec.toNat_ofNat]; omega)]
      rfl
    have whole : (sect.size + (sect.lign - 1#32)).toNat =
        sect.size.toNat + sect.lign.toNat - 1 := by
      rw [BitVec.toNat_add, lign, Nat.mod_eq_of_lt (by omega)]
      omega
    have part : (sect.size + (sect.lign - 1#32)) % sect.lign ≤ sect.size + (sect.lign - 1#32) := by
      exact Nat.mod_le _ _
    rw [BitVec.toNat_sub_of_le part, BitVec.toNat_umod, whole]
    have split := Nat.div_add_mod (sect.size.toNat + sect.lign.toNat - 1) sect.lign.toNat
    rw [Nat.mul_comm] at split
    omega

section Places

variable {flags : Flags} {undefs : List Str} {moduls : List Module}

theorem start_eq_offset {before : List Module}
    (rounding : ∀ modul ∈ before, ∀ s, (modul.sect s).lign.toNat ≤ 1 ∨
      (modul.sect s).size.toNat + (modul.sect s).lign.toNat - 1 < 4294967296) (s : Nat) :
    start before s = offset before s := by
  simp only [start]
  congr 1
  apply List.map_congr_left
  intro modul member
  exact rounded_toNat (rounding modul member s)

variable {s k : Nat}

theorem flen_le_room {modul : Module} (wellFormed : modul.WellFormed)
    (fits : (modul.sect s).lign.toNat ≤ 1 ∨
      (modul.sect s).size.toNat + (modul.sect s).lign.toNat - 1 < 4294967296) :
    modul.flen s ≤ modul.room s := by
  have bytes := wellFormed.flen s
  rw [Module.room, rounded_toNat fits, roundUp]
  split
  · exact bytes
  · rename_i large
    have up : (modul.sect s).size.toNat ≤
        ((modul.sect s).size.toNat + (modul.sect s).lign.toNat - 1) / (modul.sect s).lign.toNat *
          (modul.sect s).lign.toNat := by
      have split := Nat.div_add_mod
        ((modul.sect s).size.toNat + (modul.sect s).lign.toNat - 1) (modul.sect s).lign.toNat
      have rest := Nat.mod_lt
        ((modul.sect s).size.toNat + (modul.sect s).lign.toNat - 1)
        (show 0 < (modul.sect s).lign.toNat by omega)
      rw [Nat.mul_comm] at split
      omega
    omega

theorem start_mono (moduls : List Module) {j : Nat} (before : j ≤ k) :
    start (moduls.take j) s ≤ start (moduls.take k) s := by
  induction k with
  | zero =>
    have zero : j = 0 := by omega
    rw [zero]
  | succ k ih =>
    by_cases same : j = k + 1
    · rw [same]
    · apply Nat.le_trans (ih (by omega))
      rw [List.take_add_one]
      cases moduls[k]? with
      | none => simp
      | some modul =>
        simp only [Option.toList_some]
        rw [start_append]
        omega

theorem start_succ {modul : Module} (atK : moduls[k]? = some modul) :
    start (moduls.take (k + 1)) s = start (moduls.take k) s + modul.room s := by
  rw [List.take_add_one, atK]
  exact start_append _ _ _

/-- The bytes of different modules are in different places. -/
theorem apart_modules (wellFormed : ∀ modul ∈ moduls, modul.WellFormed)
    (fits : Fits flags undefs moduls) {j a b : Nat} {one other : Module}
    (atJ : moduls[j]? = some one) (atK : moduls[k]? = some other) (inOne : a < one.flen s)
    (inOther : b < other.flen s) (same : start (moduls.take j) s + a = start (moduls.take k) s + b) :
    j = k := by
  have general : ∀ (j k : Nat) (one : Module) (a b : Nat), moduls[j]? = some one →
      a < one.flen s → start (moduls.take j) s + a = start (moduls.take k) s + b →
      ¬j < k := by
    intro j k one a b atJ inOne same before
    have member := List.mem_of_getElem? atJ
    have room := flen_le_room (wellFormed one member) (fits.rounding one member s)
    have succ := start_succ (s := s) atJ
    have mono := start_mono moduls (s := s) (Nat.succ_le_of_lt before)
    simp only [Nat.succ_eq_add_one] at mono
    omega
  have notLess := general j k one a b atJ inOne same
  have notMore := general k j other b a atK inOther same.symm
  omega

end Places

/-! ## Fields -/

section Fields

variable {flags : Flags} {undefs : List Str} {moduls : List Module} {scan : Scan}

def Scan.bytes (scan : Scan) : Nat → Core := fun s => (scan.emits s).bytes

variable {k : Nat} {modul : Module}

section

variable (placed : Placed moduls scan)
include placed

theorem saved_modul {saved : Saved}
    (atK : scan.saved[k]? = some saved) :
    ∃ modul, moduls[k]? = some modul ∧ saved.modul = directAlloc modul := by
  have both : (scan.saved.map Saved.modul)[k]? = (moduls.map directAlloc)[k]? := by
    rw [placed.saved]
  rw [List.getElem?_map, List.getElem?_map, atK, Option.map_some] at both
  obtain ⟨modul, here, same⟩ := Option.map_eq_some_iff.mp both.symm
  exact ⟨modul, here, same.symm⟩

theorem modul_saved (atK : moduls[k]? = some modul) :
    ∃ saved, scan.saved[k]? = some saved ∧ saved.modul = directAlloc modul := by
  have both : (scan.saved.map Saved.modul)[k]? = (moduls.map directAlloc)[k]? := by
    rw [placed.saved]
  rw [List.getElem?_map, List.getElem?_map, atK, Option.map_some] at both
  obtain ⟨saved, here, same⟩ := Option.map_eq_some_iff.mp both
  exact ⟨saved, here, same⟩

/-- In core the bytes of a field are those of the module. -/
theorem Placed.field_agree (job : Job) (atK : moduls[k]? = some modul)
    (savedK : scan.saved[k]? = some job.saved)
    (inside : ∀ x ∈ modul.field job.relo, x.2 < modul.flen x.1) :
    Agree (extent (window (modul.sect job.sectindex).contents job.relo.addr.toNat) job.relo.type)
      (window (modul.sect job.sectindex).contents job.relo.addr.toNat)
      (window (scan.bytes job.sectindex) job.position) := by
  intro i bound
  have inFlen := inside (job.sectindex, job.relo.addr.toNat + i)
    ⟨rfl, Nat.le_add_right _ _, Nat.add_lt_add_left bound _⟩
  simp only at inFlen
  have index := placed.emitindex k modul job.saved atK savedK job.sectindex (by omega)
  have byte := placed.bytes k modul atK job.sectindex (job.relo.addr.toNat + i) inFlen
  simp only [window, Job.position, index, Nat.add_assoc]
  exact byte.symm

/-- The bytes that a relocation changes are the field of its module, moved to the
start of the module. -/
theorem Placed.mem_foot {job : Job} (atK : moduls[k]? = some modul)
    (savedK : scan.saved[k]? = some job.saved)
    (inside : ∀ x ∈ modul.field job.relo, x.2 < modul.flen x.1) {x : Nat × Nat} :
    x ∈ job.foot scan.bytes ↔
      ∃ j, x.2 = start (moduls.take k) x.1 + j ∧ (x.1, j) ∈ modul.field job.relo := by
  have extents := extent_eq (placed.field_agree job atK savedK inside)
  have index : ∀ j, (job.sectindex, j) ∈ modul.field job.relo →
      job.saved.emitindex job.sectindex = start (moduls.take k) job.sectindex := by
    intro j member
    have inFlen := inside _ member
    simp only at inFlen
    exact placed.emitindex k modul job.saved atK savedK job.sectindex (by omega)
  constructor
  · rintro ⟨there, low, high⟩
    rw [extents] at high
    have inField : (job.sectindex, x.2 - job.saved.emitindex job.sectindex) ∈
        modul.field job.relo := by
      refine ⟨rfl, ?_, ?_⟩
      · simp only [Job.position] at low ⊢
        omega
      · simp only [Job.position] at low high ⊢
        have same : job.relo.sect.toNat - sMin = job.sectindex := rfl
        rw [same]
        omega
    refine ⟨x.2 - job.saved.emitindex job.sectindex, ?_, ?_⟩
    · rw [there, ← index _ inField]
      simp only [Job.position] at low
      omega
    · rw [there]
      exact inField
  · rintro ⟨j, place, member⟩
    obtain ⟨there, low, high⟩ := member
    have inField : (job.sectindex, j) ∈ modul.field job.relo := ⟨rfl, low, high⟩
    have at_ := index j inField
    have section_ : x.1 = job.sectindex := there
    refine ⟨section_, ?_, ?_⟩
    · rw [place, section_, Job.position, at_]
      omega
    · rw [extents, place, section_, Job.position, at_]
      have same : job.relo.sect.toNat - sMin = job.sectindex := rfl
      rw [same] at high
      omega

end

/-- No two relocations meet in the section contents. -/
theorem jobs_apart (wellFormed : ∀ modul ∈ moduls, modul.WellFormed)
    (fits : Fits flags undefs moduls) (placed : Placed moduls scan) (origin : Nat → Int) :
    (jobs origin scan.saved).Pairwise fun a b =>
      Disjoint (a.foot scan.bytes) (b.foot scan.bytes) := by
  apply jobs_pairwise
  · intro k saved savedK
    obtain ⟨modul, atK, same⟩ := saved_modul placed savedK
    have good := wellFormed modul (List.mem_of_getElem? atK)
    have relos : saved.modul.relos = modul.relos := by
      rw [same]
      rfl
    rw [relos, List.pairwise_map]
    apply List.Pairwise.imp_of_mem _ good.apart
    intro a b inA inB apart
    rw [Set.disjoint_left]
    intro x inFirst inSecond
    obtain ⟨i, placeI, fieldI⟩ := (placed.mem_foot atK savedK (good.inside a inA).2.2).mp inFirst
    obtain ⟨j, placeJ, fieldJ⟩ := (placed.mem_foot atK savedK (good.inside b inB).2.2).mp inSecond
    have equal : i = j := by omega
    subst equal
    exact Set.disjoint_left.mp apart fieldI fieldJ
  · intro j k one other a b o p before savedJ savedK inA inB
    obtain ⟨modulJ, atJ, sameJ⟩ := saved_modul placed savedJ
    obtain ⟨modulK, atK, sameK⟩ := saved_modul placed savedK
    have goodJ := wellFormed modulJ (List.mem_of_getElem? atJ)
    have goodK := wellFormed modulK (List.mem_of_getElem? atK)
    rw [sameJ] at inA
    rw [sameK] at inB
    rw [Set.disjoint_left]
    intro x inFirst inSecond
    obtain ⟨i, placeI, fieldI⟩ := (placed.mem_foot atJ savedJ (goodJ.inside a inA).2.2).mp inFirst
    obtain ⟨l, placeL, fieldL⟩ := (placed.mem_foot atK savedK (goodK.inside b inB).2.2).mp inSecond
    have inJ := (goodJ.inside a inA).2.2 _ fieldI
    have inK := (goodK.inside b inB).2.2 _ fieldL
    have equal := apart_modules wellFormed fits atJ atK inJ inK (placeI.symm.trans placeL)
    omega

theorem originsAfter_eq {saved : List Saved} {before : List Module} (origin : Nat → Int)
    (same : saved.map Saved.modul = before.map directAlloc) (s : Nat) :
    originsAfter origin saved s = origin s + (start before s : Int) := by
  induction saved generalizing before origin with
  | nil =>
    cases before with
    | nil => simp [originsAfter, start]
    | cons _ _ => cases same
  | cons first rest ih =>
    cases before with
    | nil => cases same
    | cons modul later =>
      simp only [List.map_cons, List.cons.injEq] at same
      have next := ih (computeOrigins origin first.modul) same.2
      have sum : start (modul :: later) s = modul.room s + start later s := rfl
      have step : computeOrigins origin first.modul s = origin s + (modul.room s : Int) := by
        simp only [computeOrigins, same.1, directAlloc_length, directAlloc_getD]
        split
        · rfl
        · rename_i absent
          rw [room_of_le (Nat.not_lt.mp absent)]
          simp
      change originsAfter (computeOrigins origin first.modul) rest s = _
      omega

theorem sectionCount_le (member : modul ∈ moduls) : modul.sects.length ≤ sectionCount moduls := by
  induction moduls with
  | nil => cases member
  | cons first rest ih =>
    rcases List.mem_cons.mp member with rfl | later
    · exact Nat.le_max_left _ _
    · exact Nat.le_trans (ih later) (Nat.le_max_right _ _)

theorem Placed.secondPass_eq (placed : Placed moduls scan) (plan : Plan) :
    secondPass plan scan = scan.saved.foldlM (finish plan) ⟨fun _ => 0, scan.bytes, []⟩ := by
  have origins : (fun s => if s < scan.nsect then 0 else scan.relorig s) = fun _ => (0 : Int) := by
    funext s
    split
    · rfl
    · rename_i absent
      have none : start moduls s = 0 := by
        rw [start, List.sum_eq_zero]
        intro n member
        obtain ⟨modul, inModuls, rfl⟩ := List.mem_map.mp member
        apply room_of_le
        have bound := sectionCount_le inModuls
        have nsect : scan.nsect = sectionCount moduls := placed.nsect
        omega
      rw [placed.origin, placed.size, none]
      rfl
  simp only [secondPass, origins]
  rfl

def originsOf (moduls : List Module) (k : Nat) : Nat → Int :=
  fun s => (start (moduls.take k) s : Int)

theorem Placed.originsAfter_take (placed : Placed moduls scan) (k : Nat) :
    originsAfter (fun _ => 0) (scan.saved.take k) = originsOf moduls k := by
  have same : (scan.saved.take k).map Saved.modul = (moduls.take k).map directAlloc := by
    rw [List.map_take, List.map_take, placed.saved]
  funext s
  rw [originsAfter_eq (fun _ => 0) same]
  exact Int.zero_add _

structure Relocated (moduls : List Module) (plan : Plan) (emits : Nat → Core) : Prop where
  bytes : ∀ (k : Nat) (modul : Module), moduls[k]? = some modul → ∀ s i, i < modul.flen s →
    (∀ relo ∈ modul.relos, (s, i) ∉ modul.field relo) →
    emits s (start (moduls.take k) s + i) = (modul.sect s).contents i
  fields : ∀ (k : Nat) (modul : Module), moduls[k]? = some modul → ∀ relo ∈ modul.relos,
    let s := relo.sect.toNat - sMin
    let original := window (modul.sect s).contents relo.addr.toNat
    ∃ old nami target field, getvalu original relo.type = some old ∧
      refer plan (originsOf moduls k) modul.names relo 0 = some (nami, target) ∧
      putvalu (BitVec.ofInt 32
        ((old.toNat : Int) + target - pcOrigin plan (originsOf moduls k) relo))
        original relo.type = some field ∧
      Agree (extent original relo.type) field
        (window (emits s) (start (moduls.take k) s + relo.addr.toNat))

/-- The second pass relocates every field once and leaves the rest alone. -/
theorem secondPass_relocated (wellFormed : ∀ modul ∈ moduls, modul.WellFormed)
    (fits : Fits flags undefs moduls) (placed : Placed moduls scan) {plan : Plan} {pass : Pass2}
    (ran : secondPass plan scan = some pass) :
    Relocated moduls plan pass.emits := by
  rw [placed.secondPass_eq, finish_eq] at ran
  obtain ⟨⟨emits, relos⟩, stepped, rfl⟩ := Option.map_eq_some_iff.mp ran
  obtain ⟨folded, _⟩ := foldlM_step stepped
  change Relocated moduls plan emits
  obtain ⟨framed, settled⟩ := Lib.foldlM_confined
    (fun job _ => Job.confined plan scan.bytes job)
    (jobs_apart wellFormed fits placed (fun _ => 0)) (fun _ _ => Set.eqOn_refl _ _) folded
  constructor
  · intro k modul atK s i bound free
    have outside : ∀ job ∈ jobs (fun _ => 0) scan.saved,
        (s, start (moduls.take k) s + i) ∉ job.foot scan.bytes := by
      intro job member inFoot
      obtain ⟨l, savedL, inRelos, _⟩ := mem_jobs member
      obtain ⟨other, atL, same⟩ := saved_modul placed savedL
      have good := wellFormed other (List.mem_of_getElem? atL)
      rw [same] at inRelos
      have inside := (good.inside job.relo inRelos).2.2
      obtain ⟨j, place, inField⟩ := (placed.mem_foot atL savedL inside).mp inFoot
      have equal := apart_modules wellFormed fits atK atL bound (inside _ inField) place
      subst equal
      rw [atK] at atL
      cases atL
      simp only at place
      have sameByte : i = j := by omega
      subst sameByte
      exact free job.relo inRelos inField
    have kept := framed (s, start (moduls.take k) s + i) outside
    simp only [Job.view] at kept
    rw [kept]
    exact placed.bytes k modul atK s i bound
  · intro k modul atK relo inRelos
    obtain ⟨saved, savedK, same⟩ := modul_saved placed atK
    have good := wellFormed modul (List.mem_of_getElem? atK)
    have inSaved : relo ∈ saved.modul.relos := by
      rw [same]
      exact inRelos
    have member : (⟨saved, originsAfter (fun _ => 0) (scan.saved.take k), relo⟩ : Job) ∈
        jobs (fun _ => 0) scan.saved := jobs_mem savedK inSaved
    rw [placed.originsAfter_take] at member
    obtain ⟨alone, ranAlone, final⟩ := settled _ member
    obtain ⟨⟨changed, left⟩, ranJob, rfl⟩ := Option.map_eq_some_iff.mp ranAlone
    obtain ⟨old, nami, target, field, read, found, written, _, rfl⟩ := Job.run_some ranJob
    have inside := (good.inside relo inRelos).2.2
    have agree := placed.field_agree ⟨saved, originsOf moduls k, relo⟩ atK savedK inside
    have extents := extent_eq agree
    have back := agree.symm
    rw [← extents] at back
    obtain ⟨field', written', sameField⟩ := putvalu_agree back written
    rw [getvalu_eq agree] at read
    have names : saved.modul.names = modul.names := by
      rw [same]
      rfl
    simp only [names] at found
    refine ⟨old, nami, target, field', read, found, written', ?_⟩
    have positive := extent_pos read
    have inFlen := inside (relo.sect.toNat - sMin, relo.addr.toNat)
      ⟨rfl, Nat.le_refl _, Nat.lt_add_of_pos_right positive⟩
    have index := placed.emitindex k modul saved atK savedK (relo.sect.toNat - sMin)
      (by simp only at inFlen; omega)
    intro i bound
    have inFoot : (relo.sect.toNat - sMin, start (moduls.take k) (relo.sect.toNat - sMin) +
        relo.addr.toNat + i) ∈ Job.foot scan.bytes ⟨saved, originsOf moduls k, relo⟩ := by
      rw [placed.mem_foot atK savedK inside]
      exact ⟨relo.addr.toNat + i, by simp only; omega, rfl, by simp only; omega,
        by simp only; omega⟩
    have finalByte := final inFoot
    rw [extents] at sameField
    rw [← sameField i bound]
    simp only [Job.view, Job.sectindex, Job.position, Function.update_self, graft] at finalByte
    rw [window, finalByte, if_neg (by omega)]
    congr 1
    omega

end Fields

end AckFormal.Led
