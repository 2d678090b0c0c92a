import AckFormal.Led.Linking

/-!
# Links that succeed

Well-formed modules that fit can be linked, unless a base is not aligned, a debugging
name refers to an unknown global, or a relocation is of a kind that needs certain
instructions to be there.
-/

namespace AckFormal.Led

def Relsz.unconditional : Relsz → Bool
  | relo1 | relo2 | relo4 | relo2hi | relo2hisad => true
  | _ => false

/-- What led needs besides well-formed modules to come to an end. -/
structure Linkable (flags : Flags) (undefs : List Str) (moduls : List Module) : Prop where
  aligned : ∀ s base, flags.base s = some base → (flags.lign s).getD 1#32 ≠ 0#32 →
    base % (flags.lign s).getD 1#32 = 0#32
  unconditional : ∀ modul ∈ moduls, ∀ relo ∈ modul.relos, ∃ kind,
    relsz relo.type = some kind ∧ kind.unconditional = true
  crs : ∀ modul ∈ moduls, ∀ name ∈ modul.names, styp name.type = sCrs →
    name.crs ∈ globalStrings undefs moduls

section Total

variable {flags : Flags} {undefs : List Str} {moduls : List Module} {scan : Scan} {plan : Plan}

/-! ## Pass 1 -/

theorem stop_le_start {done : List Module} {s : Nat}
    (room : ∀ modul ∈ done, modul.flen s ≤ modul.room s) : stop done s ≤ start done s := by
  induction done with
  | nil => exact Nat.le_refl 0
  | cons first rest ih =>
    have later := ih (fun modul member => room modul (List.mem_cons_of_mem _ member))
    have here := room first List.mem_cons_self
    have sum : start (first :: rest) s = first.room s + start rest s := rfl
    simp only [stop]
    split <;> omega

theorem styp_le (type : BitVec 16) : styp type ≤ sCrs := by
  exact Nat.and_le_right

variable {modul : Module} {name : Name} {kind : Relsz}

theorem namerelocate_isSome (good : modul.WellFormed) (relorig : Nat → Int)
    (member : name ∈ modul.names) : ∃ changed, namerelocate relorig name = some changed := by
  simp only [namerelocate]
  split
  · exact ⟨_, rfl⟩
  · rename_i inSection
    split
    · rename_i com
      have bound := styp_le name.type
      have ext : isExt name.type = true := by
        apply (good.common name member com).mpr
        simp only [sUnd, sAbs, sMin] at inSection bound ⊢
        omega
      simp [ext]
    · exact ⟨_, rfl⟩

theorem getName_isSome (good : modul.WellFormed) (sflag : Bool) (relorig : Nat → Int)
    (tables : Tables) (member : name ∈ modul.names) :
    ∃ tables', getName sflag relorig tables name = some tables' := by
  obtain ⟨changed, relocated⟩ := namerelocate_isSome good relorig member
  simp only [getName, relocated, Option.bind_eq_bind, Option.bind_some]
  split
  · exact ⟨_, rfl⟩
  · split <;> exact ⟨_, rfl⟩

theorem extract_isSome (flags : Flags) (good : modul.WellFormed) (owed : ∀ s, 0 ≤ scan.zeros s) :
    ∃ scan', extract flags scan modul = some scan' := by
  have fill : (List.range (directAlloc modul).sects.length).all
      (fillable scan (directAlloc modul)) = true := by
    rw [List.all_eq_true]
    intro s _
    simp only [fillable, decide_eq_true_eq]
    exact Or.inr (owed s)
  have named : ∀ tables, ∃ final, modul.names.foldlM (getName flags.sflag scan.relorig) tables =
      some final := by
    intro tables
    apply Lib.foldlM_isSome (fun _ _ => True) trivial
    intro done name before member _
    obtain ⟨after, one⟩ := getName_isSome good flags.sflag scan.relorig before member
    exact ⟨after, one, trivial⟩
  obtain ⟨tables, collected⟩ := named scan.tables
  have names : (directAlloc modul).names = modul.names := rfl
  simp only [extract, scanModul, fill, if_true, Option.bind_eq_bind, Option.bind_some, getNames]
  rw [names, collected]
  exact ⟨_, rfl⟩

theorem firstPass_isSome (flags : Flags) (undefs : List Str)
    (wellFormed : ∀ modul ∈ moduls, modul.WellFormed)
    (rounding : ∀ modul ∈ moduls, ∀ s, (modul.sect s).lign.toNat ≤ 1 ∨
      (modul.sect s).size.toNat + (modul.sect s).lign.toNat - 1 < 4294967296) :
    ∃ scan, firstPass flags undefs moduls = some scan := by
  apply Lib.foldlM_isSome (fun done scan => Placed done scan ∧ ∀ modul ∈ done, modul ∈ moduls)
    ⟨Placed.initial undefs, by simp⟩
  rintro done modul before member ⟨placed, inModuls⟩
  have owed : ∀ s, 0 ≤ before.zeros s := by
    intro s
    have count := placed.zeros s
    have full := placed.full s
    have bound : stop done s ≤ start done s := by
      apply stop_le_start
      intro one inDone
      have there := inModuls one inDone
      exact flen_le_room (wellFormed one there) (rounding one there s)
    omega
  obtain ⟨after, read⟩ := extract_isSome flags (wellFormed modul member) owed
  refine ⟨after, read, placed.extract read, ?_⟩
  intro one inDone
  rcases List.mem_append.mp inDone with old | new
  · exact inModuls one old
  · rw [List.mem_singleton.mp new]
    exact member

/-! ## Between the passes -/

theorem completeSections_isSome (aligned : ∀ s base, flags.base s = some base →
      (flags.lign s).getD 1#32 ≠ 0#32 → base % (flags.lign s).getD 1#32 = 0#32)
    (comm : Nat → Int) (nsect : Nat) (outsect : Nat → OutSect) :
    ∃ final, completeSections flags comm nsect outsect = some final := by
  obtain ⟨layout, ran⟩ : ∃ layout, (List.range nsect).foldlM (completeSection flags comm)
      ⟨0, BitVec.ofNat 32 (szHead + nsect * szSect), outsect⟩ = some layout := by
    apply Lib.foldlM_isSome (fun _ _ => True) trivial
    intro done s layout _ _
    simp only [completeSection]
    split
    · exact ⟨_, rfl, trivial⟩
    · split
      · rename_i base given
        rw [if_neg]
        · exact ⟨_, rfl, trivial⟩
        · rintro ⟨lign, off⟩
          exact off (aligned s base given lign)
      · exact ⟨_, rfl, trivial⟩
  refine ⟨layout.outsect, ?_⟩
  rw [completeSections, ran]
  rfl

theorem evaluate_isSome (flags : Flags) (rflag : flags.rflag = false) (nflag : flags.nflag = false)
    (defined : someUndefined scan.tables.globals = false)
    (aligned : ∀ s base, flags.base s = some base → (flags.lign s).getD 1#32 ≠ 0#32 →
      base % (flags.lign s).getD 1#32 = 0#32) :
    ∃ plan, evaluate flags scan = some plan := by
  have sameFlags : undefinedFlags flags scan.tables.globals = flags := by
    simp [undefinedFlags, defined]
  obtain ⟨outsect, completed⟩ := completeSections_isSome aligned
    (normCommons flags.rflag scan.outsect scan.tables.globals).2 scan.nsect scan.outsect
  simp only [evaluate, sameFlags]
  rw [completed]
  simp [rflag, nflag]

/-! ## Pass 2 -/

section

variable {type : BitVec 16} (size : relsz type = some kind) (plain : kind.unconditional = true)
include size plain

theorem getvalu_unconditional (addr : Core) : ∃ old, getvalu addr type = some old := by
  unfold getvalu
  rw [size]
  cases kind with
  | relo1 | relo2 | relo4 | relo2hi | relo2hisad => exact ⟨_, rfl⟩
  | _ => cases plain

theorem putvalu_unconditional (valu : BitVec 32) (addr : Core) :
    ∃ field, putvalu valu addr type = some field := by
  unfold putvalu
  rw [size]
  cases kind with
  | relo1 | relo2 | relo4 | relo2hi | relo2hisad => exact ⟨_, rfl⟩
  | _ => cases plain

end

/-- A relocation whose reference is known and whose field takes any value is made. -/
theorem Job.run_isSome {job : Job} (size : relsz job.relo.type = some kind)
    (plain : kind.unconditional = true) {result : BitVec 16 × Int}
    (found : refer plan job.origin job.saved.modul.names job.relo 0 = some result)
    (emits : Nat → Core) : ∃ left, job.run plan emits = some left := by
  obtain ⟨old, read⟩ := getvalu_unconditional size plain (window (emits job.sectindex) job.position)
  obtain ⟨field, written⟩ := putvalu_unconditional size plain
    (BitVec.ofInt 32 ((old.toNat : Int) + result.2 - pcOrigin plan job.origin job.relo))
    (window (emits job.sectindex) job.position)
  exact ⟨_, Job.run_of read found written⟩

theorem refer_isSome {relo : Relo} (relorig : Nat → Int)
    (known : ∀ name ∈ modul.names, isExt name.type = true →
      ∃ entry, plan.globals.lookup name.str = some entry) (good : modul.WellFormed)
    (inRelos : relo ∈ modul.relos) :
    ∃ result, refer plan relorig modul.names relo 0 = some result := by
  unfold refer
  cases atName : modul.names[relo.nami.toNat]? with
  | none => exact ⟨_, rfl⟩
  | some name =>
    unfold addrelo
    rcases good.refers relo inRelos name atName with ⟨sct, _, _⟩ | ⟨sct, ext⟩
    · simp only [sct]
      exact ⟨_, rfl⟩
    · simp only [sct, Bool.false_eq_true, if_false]
      obtain ⟨entry, found⟩ := known name (List.mem_of_getElem? atName) ext
      obtain ⟨i, searched, here⟩ := Option.bind_eq_some_iff.mp found
      simp only [searched, here]
      split <;> exact ⟨_, rfl⟩

theorem secondPass_isSome (wellFormed : ∀ modul ∈ moduls, modul.WellFormed)
    (linkable : Linkable flags undefs moduls) (placed : Placed moduls scan)
    (known : ∀ modul ∈ moduls, ∀ name ∈ modul.names, isExt name.type = true →
      ∃ entry, plan.globals.lookup name.str = some entry) :
    ∃ pass, secondPass plan scan = some pass := by
  have stepped : ∃ final, (jobs (fun _ => 0) scan.saved).foldlM (Job.step plan)
      (scan.bytes, []) = some final := by
    apply Lib.foldlM_isSome (fun _ _ => True) trivial
    intro done job state member _
    obtain ⟨k, savedK, inRelos, _⟩ := mem_jobs member
    obtain ⟨modul, atK, same⟩ := saved_modul placed savedK
    have inModuls := List.mem_of_getElem? atK
    rw [same] at inRelos
    obtain ⟨kind, size, plain⟩ := linkable.unconditional modul inModuls job.relo inRelos
    obtain ⟨result, found⟩ := refer_isSome job.origin (known modul inModuls)
      (wellFormed modul inModuls) inRelos
    have names : job.saved.modul.names = modul.names := by
      rw [same]
      rfl
    rw [← names] at found
    obtain ⟨left, ran⟩ := Job.run_isSome size plain found state.1
    rw [Job.step, ran]
    exact ⟨_, rfl, trivial⟩
  obtain ⟨final, ran⟩ := stepped
  rw [placed.secondPass_eq, finish_eq]
  simp only [ran]
  exact ⟨_, rfl⟩

theorem mapM_isSome {α β : Type*} {f : α → Option β} {list : List α}
    (each : ∀ a ∈ list, ∃ b, f a = some b) : ∃ made, list.mapM f = some made := by
  induction list with
  | nil => exact ⟨[], rfl⟩
  | cons first rest ih =>
    obtain ⟨b, here⟩ := each first List.mem_cons_self
    obtain ⟨made, later⟩ := ih (fun a member => each a (List.mem_cons_of_mem _ member))
    refine ⟨b :: made, ?_⟩
    rw [List.mapM_cons, here, later]
    rfl

theorem placed_crs (before : List Module) (name : Name) : (name.placed before).crs = name.crs := by
  simp only [Name.placed]
  split <;> rfl

theorem addbase_crs (outsect : Nat → OutSect) (name : Name) :
    (addbase outsect name).crs = name.crs := by
  simp only [addbase]
  split
  · rfl
  · split <;> rfl

theorem Collected.local_source {tables : Tables} {outsect : Nat → OutSect} {cnt : Nat}
    (collected : Collected flags.sflag undefs (namesFrom [] moduls) tables)
    (member : name ∈ changeLoop outsect cnt tables.locals) :
    ∃ modul ∈ moduls, ∃ source ∈ modul.names,
      source.crs = name.crs ∧ source.type = name.type := by
  have saved : ∃ old ∈ tables.locals, old.crs = name.crs ∧ old.type = name.type := by
    rcases List.mem_append.mp member with changed | kept
    · obtain ⟨old, inOld, rfl⟩ := List.mem_map.mp changed
      exact ⟨old, List.mem_of_mem_take inOld, (addbase_crs outsect old).symm,
        (addbase_type outsect old).symm⟩
    · exact ⟨name, List.mem_of_mem_drop kept, rfl, rfl⟩
  obtain ⟨old, inLocals, sameCrs, sameType⟩ := saved
  rw [collected.locals] at inLocals
  obtain ⟨k, modul, source, atK, inModul, rfl⟩ := namesFrom_mem (List.mem_filter.mp inLocals).1
  rw [placed_crs] at sameCrs
  rw [placed_type] at sameType
  exact ⟨modul, List.mem_of_getElem? atK, source, inModul, sameCrs, sameType⟩

/-- A link of modules that can be linked ends. -/
theorem link_isSome (rflag : flags.rflag = false) (nflag : flags.nflag = false)
    (wellFormed : ∀ modul ∈ moduls, modul.WellFormed) (defined : AllDefined undefs moduls)
    (fits : Fits flags undefs moduls) (linkable : Linkable flags undefs moduls) :
    ∃ out, link flags undefs moduls = some out := by
  obtain ⟨scan, first⟩ := firstPass_isSome flags undefs wellFormed fits.rounding
  have placed := firstPass_placed first
  have collected := firstPass_collected first
  have fewGlobals : scan.tables.globals.names.length < 65536 := collected.length_eq ▸ fits.globals
  have noUndefined := no_undefined collected defined
  obtain ⟨plan, evaluated⟩ := evaluate_isSome flags rflag nflag noUndefined linkable.aligned
  obtain ⟨sameFlags, _, globals, locals, _, _⟩ := evaluate_final rflag nflag noUndefined evaluated
  have knownString : ∀ string ∈ globalStrings undefs moduls,
      ∃ entry, plan.globals.lookup string = some entry := by
    intro string global
    obtain ⟨old, known⟩ := collected.known global
    obtain ⟨middle, _, final⟩ := finalTable_lookup scan.outsect plan.outsect fewGlobals known
    rw [globals]
    exact ⟨_, final⟩
  have known : ∀ modul ∈ moduls, ∀ name ∈ modul.names, isExt name.type = true →
      ∃ entry, plan.globals.lookup name.str = some entry := by
    intro modul inModuls name inModul ext
    apply knownString
    apply List.mem_append_right
    apply List.mem_map_of_mem
    rw [List.mem_filter]
    exact ⟨List.mem_flatMap.mpr ⟨modul, inModuls, inModul⟩, ext⟩
  obtain ⟨pass, second⟩ := secondPass_isSome wellFormed linkable placed known
  have crs : ∃ made, localNames plan = some made := by
    simp only [localNames]
    split
    · exact ⟨[], rfl⟩
    · apply mapM_isSome
      intro name member
      simp only [doCrs]
      split
      · rename_i isCrs
        have inLocals := List.mem_of_mem_take member
        rw [locals] at inLocals
        obtain ⟨modul, inModuls, source, inModul, sameCrs, sameType⟩ :=
          collected.local_source inLocals
        have global := linkable.crs modul inModuls source inModul (by rw [sameType]; exact isCrs)
        rw [sameCrs] at global
        obtain ⟨entry, found⟩ := knownString name.crs global
        obtain ⟨i, searched, here⟩ := Option.bind_eq_some_iff.mp found
        simp only [searched, here]
        split <;> exact ⟨_, rfl⟩
      · exact ⟨_, rfl⟩
  obtain ⟨made, crs⟩ := crs
  simp only [link, first, evaluated, second, Option.bind_eq_bind, Option.bind_some, output, crs]
  exact ⟨_, rfl⟩

end Total

/-! ## The result -/

/-- Without `-r` and `-n`, and if every name is defined once, led puts the bytes of
well-formed modules that fit at the start of their module, gives the names their
address and relocates the fields; the header has the number of the names if and only if
it fits as well. -/
theorem link_relocates (flags : Flags) (undefs : List Str) (moduls : List Module)
    (rflag : flags.rflag = false) (nflag : flags.nflag = false)
    (wellFormed : ∀ modul ∈ moduls, modul.WellFormed) (defined : AllDefined undefs moduls)
    (single : SingleDefined moduls) (fits : Fits flags undefs moduls) :
    (Linkable flags undefs moduls → ∃ out, link flags undefs moduls = some out) ∧
      ∀ out, link flags undefs moduls = some out →
        (LinkedRight flags moduls out ↔ NamesFit flags undefs moduls) := by
  constructor
  · intro linkable
    exact link_isSome rflag nflag wellFormed defined fits linkable
  · intro out linked
    obtain ⟨scan, plan, links⟩ := link_links rflag nflag wellFormed defined fits linked
    exact ⟨fun right keep => (links.counted keep).mp (right.counted keep),
      links.right wellFormed defined single fits⟩

def definingModule : Module where
  sects := [⟨3, 2, 4, fun i => if i = 0 then 7 else 8⟩]
  relos := []
  names := [⟨[97], 0x82#16, 0, 1, []⟩]
  nemit := 2

def referringModule : Module where
  sects := [⟨4, 4, 4, fun i => if i = 0 then 5 else 0⟩]
  relos := [⟨0x2003#16, 2, 0, 0⟩]
  names := [⟨[97], 0x80#16, 0, 0, []⟩]
  nemit := 4

def basedFlags : Flags where
  rflag := false
  sflag := false
  cflag := false
  nflag := false
  base := fun s => if s = 0 then some 256 else none
  lign := fun _ => none

theorem definingModule_wellFormed : definingModule.WellFormed where
  few := by decide
  counts := by decide
  flen := by
    intro s
    cases s with
    | zero => decide
    | succ s => simp [Module.flen, Module.sect, definingModule, default]
  nemit := by decide
  located := by decide
  crs := by decide
  common := by decide
  inside := by simp [definingModule]
  refers := by simp [definingModule]
  apart := List.Pairwise.nil

theorem referringModule_wellFormed : referringModule.WellFormed where
  few := by decide
  counts := by decide
  flen := by
    intro s
    cases s with
    | zero => decide
    | succ s => simp [Module.flen, Module.sect, referringModule, default]
  nemit := by decide
  located := by decide
  crs := by decide
  common := by decide
  inside := by
    intro relo member
    simp only [referringModule, List.mem_singleton] at member
    subst member
    refine ⟨by decide, by decide, ?_⟩
    rintro ⟨s, i⟩ ⟨there, _, inField⟩
    subst there
    have four : i < 4 := inField
    exact four
  refers := by
    intro relo member name here
    simp only [referringModule, List.mem_singleton] at member
    subst member
    cases here
    decide
  apart := List.pairwise_singleton _ _

/-- Two modules, one of which refers to a name of the other. -/
theorem link_relocates_reference :
    ∃ out, link basedFlags [] [definingModule, referringModule] = some out ∧
      LinkedRight basedFlags [definingModule, referringModule] out := by
  have both := link_relocates basedFlags [] [definingModule, referringModule] rfl rfl
    (by
      intro modul member
      simp only [List.mem_cons, List.not_mem_nil, or_false] at member
      rcases member with rfl | rfl
      · exact definingModule_wellFormed
      · exact referringModule_wellFormed)
    (by unfold AllDefined; decide)
    (by unfold SingleDefined; decide)
    { rounding := by
        intro modul member s
        simp only [List.mem_cons, List.not_mem_nil, or_false] at member
        rcases member with rfl | rfl
        · cases s with
          | zero => decide
          | succ s => simp [Module.sect, definingModule, default]
        · cases s with
          | zero => decide
          | succ s => simp [Module.sect, referringModule, default]
      foff := fun s bytes => by
        have present : s < 1 := by
          by_contra absent
          exact bytes (stop_of_le (Nat.not_lt.mp absent))
        rw [Nat.lt_one_iff.mp present]
        decide
      nemit := by decide
      locals := by decide
      globals := by decide }
  obtain ⟨out, linked⟩ := both.1
    { aligned := by
        intro s base given _
        simp only [basedFlags] at given
        split at given
        · cases given
          change 256#32 % 1#32 = 0#32
          decide
        · cases given
      unconditional := by
        intro modul member relo inRelos
        simp only [List.mem_cons, List.not_mem_nil, or_false] at member
        rcases member with rfl | rfl
        · cases inRelos
        · simp only [referringModule, List.mem_singleton] at inRelos
          subst inRelos
          exact ⟨.relo4, by decide, rfl⟩
      crs := by decide }
  exact ⟨out, linked, (both.2 out linked).mpr (fun _ => by decide)⟩

def localName : Name := ⟨[97], 0x02#16, 0, 0, []⟩

def localsModule (n : Nat) : Module where
  sects := [⟨1, 1, 1, fun _ => 0⟩]
  relos := []
  names := List.replicate n localName
  nemit := 1

section Locals

variable {n first second : Nat}

theorem localsModule_names {name : Name} (member : name ∈ (localsModule n).names) :
    name = localName :=
  List.eq_of_mem_replicate member

theorem localsModule_sect (s : Nat) :
    (localsModule n).sect s = if s = 0 then ⟨1, 1, 1, fun _ => 0⟩ else default := by
  cases s with
  | zero => rfl
  | succ s => rfl

theorem localsModule_wellFormed (few : n < 65536) : (localsModule n).WellFormed where
  few := Nat.le_of_ble_eq_true rfl
  counts := by simpa [localsModule] using few
  flen := by
    intro s
    rw [Module.flen, localsModule_sect]
    split <;> decide
  nemit := rfl
  located := by
    intro name member _
    rw [localsModule_names member]
    exact Nat.zero_lt_one
  crs := by
    intro name member
    rw [localsModule_names member]
    decide
  common := by
    intro name member com
    rw [localsModule_names member] at com
    exact absurd com (by decide)
  inside := by simp [localsModule]
  refers := by simp [localsModule]
  apart := List.Pairwise.nil

theorem mem_localsModules {modul : Module}
    (member : modul ∈ [localsModule first, localsModule second]) : ∃ n, modul = localsModule n := by
  simp only [List.mem_cons, List.not_mem_nil, or_false] at member
  rcases member with rfl | rfl
  · exact ⟨first, rfl⟩
  · exact ⟨second, rfl⟩

theorem localsModules_names {name : Name}
    (member : name ∈ [localsModule first, localsModule second].flatMap Module.names) :
    name = localName := by
  obtain ⟨modul, inModuls, inModul⟩ := List.mem_flatMap.mp member
  obtain ⟨n, rfl⟩ := mem_localsModules inModuls
  exact localsModule_names inModul

theorem localsModules_strings :
    globalStrings [] [localsModule first, localsModule second] = [] := by
  rw [globalStrings, List.nil_append, List.map_eq_nil_iff, List.filter_eq_nil_iff]
  intro name member
  rw [localsModules_names member]
  decide

theorem localsModules_defined : AllDefined [] [localsModule first, localsModule second] := by
  intro string global
  rw [localsModules_strings] at global
  cases global

theorem localsModules_single : SingleDefined [localsModule first, localsModule second] := by
  rw [SingleDefined, List.pairwise_iff_forall_sublist]
  rintro a b sublist ⟨defines, _⟩
  have member := sublist.subset (List.mem_cons_self : a ∈ [a, b])
  rw [localsModules_names member] at defines
  exact absurd defines (by decide)

theorem localsModules_count (first second : Nat) :
    (savedLocals false ([localsModule first, localsModule second].flatMap Module.names)).length =
      first + second := by
  have all : savedLocals false ([localsModule first, localsModule second].flatMap Module.names) =
      [localsModule first, localsModule second].flatMap Module.names := by
    rw [savedLocals, List.filter_eq_self]
    intro name member
    rw [localsModules_names member]
    decide
  rw [all]
  simp [localsModule]

theorem localsModules_wellFormed (fewFirst : first < 65536) (fewSecond : second < 65536) :
    ∀ modul ∈ [localsModule first, localsModule second], modul.WellFormed := by
  intro modul member
  simp only [List.mem_cons, List.not_mem_nil, or_false] at member
  rcases member with rfl | rfl
  · exact localsModule_wellFormed fewFirst
  · exact localsModule_wellFormed fewSecond

theorem localsModules_firstPass (flags : Flags) (fewFirst : first < 65536)
    (fewSecond : second < 65536) :
    ∃ scan, firstPass flags [] [localsModule first, localsModule second] = some scan := by
  apply firstPass_isSome flags [] (localsModules_wellFormed fewFirst fewSecond)
  intro modul member s
  obtain ⟨n, rfl⟩ := mem_localsModules member
  rw [localsModule_sect]
  split <;> decide

theorem localsModules_secondPass {scan : Scan} (plan : Plan)
    (placed : Placed [localsModule first, localsModule second] scan) :
    ∃ pass, secondPass plan scan = some pass := by
  have none : jobs (fun _ => 0) scan.saved = [] := by
    rw [List.eq_nil_iff_forall_not_mem]
    intro job member
    obtain ⟨k, savedK, inRelos, _⟩ := mem_jobs member
    obtain ⟨modul, atK, same⟩ := saved_modul placed savedK
    obtain ⟨n, rfl⟩ := mem_localsModules (List.mem_of_getElem? atK)
    rw [same] at inRelos
    cases inRelos
  rw [placed.secondPass_eq, finish_eq]
  simp only [none]
  exact ⟨_, rfl⟩

/-- Local names whose number is a multiple of 65536 are not written at all. -/
theorem link_localsModules (fewFirst : first < 65536) (fewSecond : second < 65536)
    (total : first + second = 65536) :
    ∃ out, link basedFlags [] [localsModule first, localsModule second] = some out ∧
      ∀ entry ∈ out.names, entry.str = [] := by
  obtain ⟨scan, read⟩ := localsModules_firstPass basedFlags fewFirst fewSecond
  have placed := firstPass_placed read
  have collected := firstPass_collected read
  have noUndefined := no_undefined collected localsModules_defined
  obtain ⟨plan, evaluated⟩ := evaluate_isSome basedFlags rfl rfl noUndefined
    (by
      intro s base given _
      simp only [basedFlags] at given
      split at given
      · cases given
        change 256#32 % 1#32 = 0#32
        decide
      · cases given)
  obtain ⟨sameFlags, _, globals, _, nlocals, _⟩ :=
    evaluate_final rfl rfl noUndefined evaluated
  obtain ⟨pass, second⟩ := localsModules_secondPass plan placed
  have zero : plan.nlocals.toNat = 0 := by
    rw [nlocals, collected.counted, BitVec.toNat_ofNat, collected.locals_length]
    change (savedLocals false _).length % 65536 = 0
    rw [localsModules_count, total]
  have noGlobals : plan.globals.names = [] := by
    have few := collected.length_eq
    rw [localsModules_strings, List.dedup_nil, List.length_nil,
      List.length_eq_zero_iff] at few
    have small : scan.tables.globals.names.length < 65536 := by
      rw [few]
      decide
    rw [globals, finalTable, rewriteCounted_names _ _ (normCommons_few _ small),
      normCommons_names _ small, few]
    rfl
  have noLocals : localNames plan = some [] := by
    simp only [localNames, zero]
    split <;> rfl
  have made : ∃ out, output basedFlags scan plan pass = some out := by
    simp only [output, noLocals]
    exact ⟨_, rfl⟩
  obtain ⟨out, made⟩ := made
  refine ⟨out, ?_, ?_⟩
  · simp only [link, read, evaluated, second, Option.bind_eq_bind, Option.bind_some]
    exact made
  · obtain ⟨_, _, _, _, _, names⟩ := output_some made
    obtain ⟨locals, crs, written, _⟩ := names (by rw [sameFlags]; rfl)
    rw [zero, List.take_zero, List.mapM_nil] at crs
    cases crs
    intro entry member
    rw [written, noGlobals, List.nil_append, List.nil_append] at member
    obtain ⟨s, _, rfl⟩ := List.mem_map.mp (List.mem_of_mem_take member)
    rfl

end Locals

/-- `NLocals` counts 65536 local names as none: none of them is written. -/
theorem link_loses_locals :
    ∃ (flags : Flags) (moduls : List Module) (out : Output), flags.rflag = false ∧
      flags.nflag = false ∧ (∀ modul ∈ moduls, modul.WellFormed) ∧ AllDefined [] moduls ∧
      SingleDefined moduls ∧ link flags [] moduls = some out ∧ ¬LinkedRight flags moduls out := by
  obtain ⟨out, linked, empty⟩ := link_localsModules (show 65535 < 65536 by decide)
    (show 1 < 65536 by decide) (by decide)
  refine ⟨basedFlags, [localsModule 65535, localsModule 1], out, rfl, rfl,
    localsModules_wellFormed (by decide) (by decide), localsModules_defined,
    localsModules_single, linked, ?_⟩
  intro right
  have member : localName ∈ (localsModule 1).names := List.mem_singleton_self _
  obtain ⟨entry, written, str, _⟩ := right.locals 1 (localsModule 1) rfl localName member
    (by decide) rfl (by decide) (by decide)
  rw [empty entry written] at str
  exact absurd str (by decide)

end AckFormal.Led
