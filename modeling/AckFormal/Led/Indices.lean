import AckFormal.Led.LinkTotal

/-!
# Counts and indices in relocatable output

With `-r` the header counts the relocations and names in 16 bits, and a relocation
has an index in the name table: local names first, then the global ones, then one
name for each section.  The first index outside the table stands for absolute.
-/

namespace AckFormal.Led

open BitVec (ofNat_add toNat_ofNat)

/-- The relocations of all modules in order, each with the names of its module. -/
def allRelos (moduls : List Module) : List (List Name × Relo) :=
  moduls.flatMap fun modul => modul.relos.map fun relo => (modul.names, relo)

def sectname (out : Output) (s : Nat) : Name :=
  ⟨[], BitVec.ofNat 16 (sMin + s) ||| 0x100#16, 0, (out.outsect s).base, []⟩

/-- The index is that of the record for what the relocation refers to. -/
def Intended (out : Output) (names : List Name) (relo : Relo) (nami : Nat) : Prop :=
  match names[relo.nami.toNat]? with
  | none => nami = out.names.length
  | some name =>
    if isSct name.type then out.names[nami]? = some (sectname out (styp name.type - sMin))
    else ∃ entry, out.symbols.lookup name.str = some entry ∧
      if entry.isCommon || entry.isUndefined then out.names[nami]? = some entry
      else if styp entry.type = sAbs then nami = out.names.length
      else out.names[nami]? = some (sectname out (styp entry.type - sMin))

def nameCount (sflag : Bool) (undefs : List Str) (moduls : List Module) : Nat :=
  (savedLocals sflag (moduls.flatMap Module.names)).length +
    (globalStrings undefs moduls).dedup.length + sectionCount moduls

/-- The header counts what is written, every relocation refers to the right record,
and led reports counts that do not fit.  With `-s` names are counted only for the
indices in relocations. -/
structure IndicesRight (flags : Flags) (undefs : List Str) (moduls : List Module)
    (out : Output) : Prop where
  relos : out.nrelo.toNat = out.relos.length
  names : out.nname.toNat = out.names.length
  indices : ∀ (i : Nat) (names : List Name) (relo new : Relo),
    (allRelos moduls)[i]? = some (names, relo) → out.relos[i]? = some new →
    Intended out names relo new.nami.toNat
  reported : 65536 ≤ (allRelos moduls).length ∨
      (flags.sflag = true → ∃ modul ∈ moduls, modul.relos ≠ []) ∧
        65536 ≤ nameCount flags.sflag undefs moduls →
    out.status ≠ 0

section Relocatable

variable {flags : Flags} {undefs : List Str} {moduls : List Module} {scan : Scan} {plan : Plan}
  {pass : Pass2} {out : Output}

theorem allRelos_length (moduls : List Module) :
    (allRelos moduls).length = (moduls.map fun modul => modul.relos.length).sum := by
  simp [allRelos]

theorem jobs_allRelos (origin : Nat → Int) {saved : List Saved} {moduls : List Module}
    (same : saved.map Saved.modul = moduls.map directAlloc) :
    (jobs origin saved).map (fun job => (job.saved.modul.names, job.relo)) = allRelos moduls := by
  induction saved generalizing origin moduls with
  | nil =>
    cases moduls with
    | nil => rfl
    | cons _ _ => cases same
  | cons first rest ih =>
    cases moduls with
    | nil => cases same
    | cons modul later =>
      simp only [List.map_cons, List.cons.injEq] at same
      have head : (fun job : Job => (job.saved.modul.names, job.relo)) ∘ Job.mk first origin =
          fun relo => (modul.names, relo) := by
        funext relo
        simp only [Function.comp_apply, same.1]
        rfl
      rw [jobs, List.map_append, ih _ same.2, List.map_map, head, same.1, allRelos, allRelos,
        List.flatMap_cons]
      rfl

theorem evaluate_relocatable (rflag : flags.rflag = true)
    (ran : evaluate flags scan = some plan) :
    plan.flags = flags ∧ plan.nsect = scan.nsect ∧ plan.globals = scan.tables.globals ∧
      plan.locals = scan.tables.locals ∧ plan.nlocals = scan.tables.nlocals := by
  have sameFlags : undefinedFlags flags scan.tables.globals = flags := by
    simp [undefinedFlags, rflag]
  simp only [evaluate, sameFlags, rflag] at ran
  obtain ⟨outsect, _, rest⟩ := Option.bind_eq_some_iff.mp ran
  cases rest
  exact ⟨rfl, rfl, rfl, rfl, rfl⟩

section

variable {tables : Tables} (collected : Collected flags.sflag undefs (namesFrom [] moduls) tables)
include collected

/-- An entry that is defined in a section is in a section of the output. -/
theorem Collected.in_section
    (wellFormed : ∀ modul ∈ moduls, modul.WellFormed) {string : Str} {entry : Name}
    (known : tables.globals.lookup string = some entry)
    (settled : (entry.isCommon || entry.isUndefined) = false) (relative : styp entry.type ≠ sAbs) :
    styp entry.type - sMin < sectionCount moduls := by
  have ext : isExt entry.type = true :=
    collected.entry_type known (fun type => isExt type = true) (fun _ _ _ _ ext => ext) (by decide)
  have bound : isCom entry.type = false → styp entry.type ≠ sUnd → styp entry.type ≠ sAbs →
      styp entry.type - sMin < sectionCount moduls := by
    refine collected.entry_type known (fun type => isCom type = false → styp type ≠ sUnd →
      styp type ≠ sAbs → styp type - sMin < sectionCount moduls) ?_ ?_
    · intro modul inModuls origin inModul ext com und abs
      have good := wellFormed modul inModuls
      have located : origin.located = true := by
        simp only [Name.located, com, Bool.not_false, Bool.and_true, Bool.not_eq_true',
          decide_eq_false_iff_not]
        rintro (isUnd | isAbs | isCrs)
        · exact und isUnd
        · exact abs isAbs
        · exact good.crs origin inModul ext isCrs
      exact Nat.lt_of_lt_of_le (good.located origin inModul located) (sectionCount_le inModuls)
    · exact fun _ und => absurd (by decide : styp 0x80#16 = sUnd) und
  rw [Bool.or_eq_false_iff] at settled
  apply bound
  · by_contra com
    have common : entry.isCommon = true := by
      rw [isCommon_eq, ext, Bool.and_true]
      simpa using com
    rw [settled.1] at common
    cases common
  · intro und
    rw [isUndefined_of_styp ext und] at settled
    cases settled.2
  · exact relative

end

/-- The relocations after the second pass are those of the modules, changed one by one. -/
theorem secondPass_relos (placed : Placed moduls scan) (ran : secondPass plan scan = some pass) :
    pass.relos.length = (allRelos moduls).length ∧
      ∀ (i : Nat) (names : List Name) (relo new : Relo),
        (allRelos moduls)[i]? = some (names, relo) → pass.relos[i]? = some new →
        ∃ relorig target, refer plan relorig names relo 0 = some (new.nami, target) := by
  rw [placed.secondPass_eq, finish_eq] at ran
  obtain ⟨⟨emits, relos⟩, stepped, rfl⟩ := Option.map_eq_some_iff.mp ran
  obtain ⟨_, made, changes, same⟩ := foldlM_step stepped
  subst same
  have all := jobs_allRelos (fun _ => 0) placed.saved
  constructor
  · rw [(mapM_made changes).1, ← all, List.length_map]
  · intro i names relo new inAll inMade
    rw [← all, List.getElem?_map] at inAll
    obtain ⟨job, atJob, same⟩ := Option.map_eq_some_iff.mp inAll
    cases same
    have changed : job.changed plan = some new := ((mapM_made changes).2 i job atJob).symm.trans inMade
    obtain ⟨⟨nami, target⟩, found, rfl⟩ := Option.map_eq_some_iff.mp changed
    exact ⟨job.origin, target, found⟩

theorem output_relos (made : output flags scan plan pass = some out)
    (rflag : plan.flags.rflag = true) :
    out.nrelo = scan.nrelo ∧ out.relos = pass.relos.take scan.nrelo.toNat ∧
      (plan.flags.sflag = true → out.names = [] ∧ out.nname = 0) := by
  obtain ⟨locals, _, same⟩ := Option.bind_eq_some_iff.mp made
  cases same
  simp only [rflag, Bool.or_true, if_true]
  refine ⟨trivial, trivial, ?_⟩
  intro strip
  simp [strip]

structure Kept (flags : Flags) (undefs : List Str) (moduls : List Module) (scan : Scan)
    (plan : Plan) (out : Output) : Prop where
  placed : Placed moduls scan
  collected : Collected flags.sflag undefs (namesFrom [] moduls) scan.tables
  nsect : plan.nsect = sectionCount moduls
  globals : plan.globals = scan.tables.globals
  nlocals : plan.nlocals = BitVec.ofNat 16 scan.tables.locals.length
  symbols : out.symbols = plan.globals
  outsect : out.outsect = plan.outsect
  nrelo : out.nrelo = BitVec.ofNat 16 (allRelos moduls).length
  relos : out.relos.length = out.nrelo.toNat
  changed : ∀ (i : Nat) (names : List Name) (relo new : Relo),
    (allRelos moduls)[i]? = some (names, relo) → out.relos[i]? = some new →
    ∃ relorig target, refer plan relorig names relo 0 = some (new.nami, target)
  stripped : flags.sflag = true → out.names = [] ∧ out.nname = 0
  names : flags.sflag = false → ∃ locals : List Name, locals.length = plan.nlocals.toNat ∧
    out.names = locals ++ (plan.globals.names ++ sectionNames plan).take
      (plan.globals.nglobals.toNat + plan.nsect) ∧
    out.nname = plan.nlocals + plan.globals.nglobals + BitVec.ofNat 16 plan.nsect

/-- What a link with `-r` leaves of the counts, names and relocations. -/
theorem link_kept (rflag : flags.rflag = true) (linked : link flags undefs moduls = some out) :
    ∃ scan plan, Kept flags undefs moduls scan plan out := by
  obtain ⟨scan, plan, pass, first, evaluated, second, made⟩ := link_some linked
  have placed := firstPass_placed first
  have collected := firstPass_collected first
  obtain ⟨sameFlags, nsect, globals, locals, nlocals⟩ := evaluate_relocatable rflag evaluated
  obtain ⟨_, _, outsect, _, symbols, names⟩ := output_some made
  obtain ⟨nrelo, relos, stripped⟩ := output_relos made (by rw [sameFlags]; exact rflag)
  obtain ⟨length, changed⟩ := secondPass_relos placed second
  have count : scan.nrelo = BitVec.ofNat 16 (allRelos moduls).length := by
    rw [placed.nrelo, allRelos_length]
  have short : scan.nrelo.toNat ≤ pass.relos.length := by
    rw [length, count, toNat_ofNat]
    exact Nat.mod_le _ _
  have fewLocals : plan.nlocals.toNat ≤ plan.locals.length := by
    rw [nlocals, locals, collected.counted, toNat_ofNat]
    exact Nat.mod_le _ _
  refine ⟨scan, plan, placed, collected, nsect.trans placed.nsect, globals,
    nlocals.trans collected.counted, symbols, outsect, nrelo.trans count, ?_, ?_, ?_, ?_⟩
  · rw [relos, nrelo, List.length_take]
    exact Nat.min_eq_left short
  · intro i fromNames relo new inAll inRelos
    rw [relos, List.getElem?_take] at inRelos
    split at inRelos
    · exact changed i fromNames relo new inAll inRelos
    · cases inRelos
  · intro strip
    exact stripped (by rw [sameFlags]; exact strip)
  · intro keep
    obtain ⟨written, crs, outNames, nname⟩ := names (by rw [sameFlags]; exact keep)
    refine ⟨written, ?_, outNames, nname⟩
    rw [(mapM_made crs).1, List.length_take]
    exact Nat.min_eq_left fewLocals

theorem mem_allRelos {i : Nat} {names : List Name} {relo : Relo}
    (here : (allRelos moduls)[i]? = some (names, relo)) :
    ∃ modul ∈ moduls, modul.names = names ∧ relo ∈ modul.relos := by
  obtain ⟨modul, inModuls, inModul⟩ := List.mem_flatMap.mp (List.mem_of_getElem? here)
  obtain ⟨other, inRelos, same⟩ := List.mem_map.mp inModul
  cases same
  exact ⟨modul, inModuls, rfl, inRelos⟩

structure Table (plan : Plan) (out : Output) (locals : List Name) : Prop where
  names : out.names = locals ++ (plan.globals.names ++ sectionNames plan)
  nlocals : plan.nlocals = BitVec.ofNat 16 locals.length
  fits : locals.length + plan.globals.names.length + plan.nsect < 65536

theorem Kept.table (kept : Kept flags undefs moduls scan plan out) (keep : flags.sflag = false)
    (fits : nameCount flags.sflag undefs moduls < 65536) :
    ∃ locals, Table plan out locals ∧ out.nname.toNat = out.names.length := by
  obtain ⟨locals, length, names, nname⟩ := kept.names keep
  have count := kept.collected.length_eq
  have sameLocals := kept.collected.locals_length
  simp only [nameCount] at fits
  have allLocals : locals.length = scan.tables.locals.length := by
    rw [length, kept.nlocals, toNat_ofNat]
    exact Nat.mod_eq_of_lt (by omega)
  have globals : plan.globals.names.length = scan.tables.globals.names.length := by
    rw [kept.globals]
  have nsect := kept.nsect
  have whole : out.names = locals ++ (plan.globals.names ++ sectionNames plan) := by
    rw [names, List.take_of_length_le]
    rw [nglobals_toNat (by omega), List.length_append]
    simp [sectionNames]
  refine ⟨locals, ⟨whole, ?_, by omega⟩, ?_⟩
  · rw [kept.nlocals, allLocals]
  · rw [nname, whole, kept.nlocals, SymTab.counted, ← ofNat_add, ← ofNat_add,
      toNat_ofNat, Nat.mod_eq_of_lt (by omega)]
    simp only [List.length_append, sectionNames, List.length_map, List.length_range]
    omega

section Index

variable {locals : List Name}

variable (table : Table plan out locals)
include table

theorem Table.length :
    out.names.length = locals.length + plan.globals.names.length + plan.nsect := by
  rw [table.names]
  simp only [List.length_append, sectionNames, List.length_map, List.length_range]
  omega

/-- The index of the name of a section, or of what comes after them. -/
theorem Table.section_index {s : Nat} (few : s ≤ plan.nsect) :
    (plan.nlocals + (plan.globals.nglobals + BitVec.ofNat 16 s)).toNat =
      locals.length + plan.globals.names.length + s := by
  have fits := table.fits
  rw [table.nlocals, SymTab.counted, ← ofNat_add, ← ofNat_add, toNat_ofNat,
    Nat.mod_eq_of_lt (by omega)]
  omega

theorem Table.section_name (outsect : out.outsect = plan.outsect)
    {s : Nat} (few : s < plan.nsect) :
    out.names[locals.length + plan.globals.names.length + s]? = some (sectname out s) := by
  rw [table.names, Nat.add_assoc, List.getElem?_append_right (by omega), Nat.add_sub_cancel_left,
    List.getElem?_append_right (by omega), Nat.add_sub_cancel_left, sectionNames,
    List.getElem?_map, List.getElem?_range few, sectname, outsect]
  rfl

theorem Table.global_index {i : Nat} {entry : Name}
    (here : plan.globals.names[i]? = some entry) :
    out.names[(plan.nlocals + BitVec.ofNat 16 i).toNat]? = some entry := by
  have fits := table.fits
  have bound := (List.getElem?_eq_some_iff.mp here).1
  rw [table.nlocals, ← ofNat_add, toNat_ofNat, Nat.mod_eq_of_lt (by omega),
    table.names, List.getElem?_append_right (by omega), Nat.add_sub_cancel_left,
    List.getElem?_append_left bound]
  exact here

end Index

variable (kept : Kept flags undefs moduls scan plan out)
  (wellFormed : ∀ modul ∈ moduls, modul.WellFormed)
include kept wellFormed

/-- If the counts fit a relocation gets the index of what it refers to. -/
theorem Kept.intended {locals : List Name}
    (table : Table plan out locals) {modul : Module} (inModuls : modul ∈ moduls) {relo : Relo}
    (inRelos : relo ∈ modul.relos) {relorig : Nat → Int} {nami : BitVec 16} {target : Int}
    (found : refer plan relorig modul.names relo 0 = some (nami, target)) :
    Intended out modul.names relo nami.toNat := by
  have good := wellFormed modul inModuls
  have nsect := kept.nsect
  have few := sectionCount_le inModuls
  unfold refer at found
  unfold Intended
  cases atName : modul.names[relo.nami.toNat]? with
  | none =>
    simp only [atName] at found ⊢
    cases found
    rw [table.section_index (Nat.le_refl _), table.length]
  | some name =>
    simp only [atName] at found ⊢
    unfold addrelo at found
    rcases good.refers relo inRelos name atName with ⟨sct, _, inSections⟩ | ⟨sct, ext⟩
    · simp only [sct] at found ⊢
      cases found
      rw [table.section_index (by omega)]
      exact table.section_name kept.outsect (by omega)
    · simp only [sct, Bool.false_eq_true, if_false] at found ⊢
      cases searched : plan.globals.searchname name.str with
      | none => simp only [searched] at found; cases found
      | some i =>
        simp only [searched] at found
        cases here : plan.globals.names[i]? with
        | none => simp only [here] at found; cases found
        | some entry =>
          simp only [here] at found
          have known : plan.globals.lookup name.str = some entry := by
            rw [SymTab.lookup, searched]
            exact here
          refine ⟨entry, by rw [kept.symbols]; exact known, ?_⟩
          split at found
          · rename_i open_
            rw [if_pos open_]
            cases found
            exact table.global_index here
          · rename_i settled
            rw [if_neg settled]
            cases found
            by_cases absolute : styp entry.type = sAbs
            · rw [if_pos absolute, if_pos absolute, table.section_index (Nat.le_refl _),
                table.length]
            · rw [kept.globals] at known
              have inSection := kept.collected.in_section wellFormed known
                (by simpa using settled) absolute
              rw [if_neg absolute, if_neg absolute, table.section_index (by omega)]
              exact table.section_name kept.outsect (by omega)

/-- Without a name table no relocation can refer to the right record. -/
theorem Kept.not_intended (strip : flags.sflag = true)
    (fits : nameCount flags.sflag undefs moduls < 65536) {modul : Module}
    (inModuls : modul ∈ moduls) {relo : Relo} (inRelos : relo ∈ modul.relos)
    {relorig : Nat → Int} {nami : BitVec 16} {target : Int}
    (found : refer plan relorig modul.names relo 0 = some (nami, target)) :
    ¬Intended out modul.names relo nami.toNat := by
  have good := wellFormed modul inModuls
  have nsect := kept.nsect
  have few := sectionCount_le inModuls
  have some_ := (good.inside relo inRelos).2.1
  have count := kept.collected.length_eq
  have empty := (kept.stripped strip).1
  have noLocals : scan.tables.locals = [] := by
    rw [kept.collected.locals, strip]
    simp [savedLocals]
  -- the index that stands for absolute is not zero, the length of the empty table
  have past : (plan.nlocals + (plan.globals.nglobals + BitVec.ofNat 16 plan.nsect)).toNat ≠ 0 := by
    simp only [nameCount] at fits
    rw [kept.nlocals, noLocals, SymTab.counted, kept.globals, ← ofNat_add,
      ← ofNat_add, toNat_ofNat, List.length_nil, Nat.mod_eq_of_lt (by omega)]
    omega
  unfold refer at found
  unfold Intended
  rw [empty]
  cases atName : modul.names[relo.nami.toNat]? with
  | none =>
    simp only [atName] at found
    cases found
    exact past
  | some name =>
    simp only [atName] at found
    unfold addrelo at found
    rcases good.refers relo inRelos name atName with ⟨sct, _, _⟩ | ⟨sct, ext⟩
    · simp [sct]
    · simp only [sct] at found ⊢
      rintro ⟨entry, known, right⟩
      cases searched : plan.globals.searchname name.str with
      | none => simp only [searched] at found; cases found
      | some i =>
        simp only [searched] at found
        rw [kept.symbols, SymTab.lookup, searched] at known
        have here : plan.globals.names[i]? = some entry := known
        simp only [here] at found
        split at right
        · cases right
        · rename_i settled
          rw [if_neg settled] at found
          split at right
          · rename_i absolute
            rw [if_pos absolute] at found
            cases found
            exact past right
          · cases right

end Relocatable

/-- With `-r` the counts and indices are right if and only if they fit in 16 bits and
a relocation never has to do without names.  After `-s -r` the flag `-s` is still set,
although led says that it is ignored. -/
theorem link_relocatable_iff (flags : Flags) (undefs : List Str) (moduls : List Module)
    (out : Output) (rflag : flags.rflag = true) (wellFormed : ∀ modul ∈ moduls, modul.WellFormed)
    (linked : link flags undefs moduls = some out) (success : out.status = 0) :
    IndicesRight flags undefs moduls out ↔
      (allRelos moduls).length < 65536 ∧
        (flags.sflag = false → nameCount flags.sflag undefs moduls < 65536) ∧
        (flags.sflag = true → ∀ modul ∈ moduls, modul.relos = []) := by
  obtain ⟨scan, plan, kept⟩ := link_kept rflag linked
  constructor
  · intro right
    have fewRelos : (allRelos moduls).length < 65536 := by
      by_contra many
      exact right.reported (Or.inl (by omega)) success
    have fewNames (counted : flags.sflag = true → ∃ modul ∈ moduls, modul.relos ≠ []) :
        nameCount flags.sflag undefs moduls < 65536 := by
      by_contra many
      exact right.reported (Or.inr ⟨counted, by omega⟩) success
    refine ⟨fewRelos, fun keep => fewNames fun strip => ?_, ?_⟩
    · rw [keep] at strip
      cases strip
    intro strip modul inModuls
    by_contra some_
    have fits := fewNames fun _ => ⟨modul, inModuls, some_⟩
    obtain ⟨relo, inRelos⟩ := List.exists_mem_of_ne_nil _ some_
    have inAll : (modul.names, relo) ∈ allRelos moduls :=
      List.mem_flatMap.mpr ⟨modul, inModuls, List.mem_map_of_mem inRelos⟩
    obtain ⟨i, here⟩ := List.mem_iff_getElem?.mp inAll
    have bound := (List.getElem?_eq_some_iff.mp here).1
    have length : out.relos.length = (allRelos moduls).length := by
      rw [kept.relos, kept.nrelo, BitVec.toNat_ofNat]
      exact Nat.mod_eq_of_lt fewRelos
    obtain ⟨new, atNew⟩ : ∃ new, out.relos[i]? = some new :=
      ⟨_, List.getElem?_eq_getElem (by omega)⟩
    obtain ⟨relorig, target, found⟩ := kept.changed i _ _ new here atNew
    exact kept.not_intended wellFormed strip fits inModuls inRelos found
      (right.indices i _ _ new here atNew)
  · rintro ⟨fewRelos, fewNames, stripped⟩
    refine ⟨kept.relos.symm, ?_, ?_, ?_⟩
    · cases strip : flags.sflag with
      | true =>
        obtain ⟨names, nname⟩ := kept.stripped strip
        rw [names, nname]
        rfl
      | false =>
        obtain ⟨locals, _, nname⟩ := kept.table strip (fewNames strip)
        exact nname
    · intro i names relo new inAll atNew
      obtain ⟨modul, inModuls, rfl, inRelos⟩ := mem_allRelos inAll
      obtain ⟨relorig, target, found⟩ := kept.changed i _ _ new inAll atNew
      cases strip : flags.sflag with
      | true =>
        rw [stripped strip modul inModuls] at inRelos
        cases inRelos
      | false =>
        obtain ⟨locals, table, _⟩ := kept.table strip (fewNames strip)
        exact kept.intended wellFormed table inModuls inRelos found
    · rintro (many | ⟨counted, many⟩)
      · omega
      · cases strip : flags.sflag with
        | true =>
          obtain ⟨modul, inModuls, some_⟩ := counted strip
          exact absurd (stripped strip modul inModuls) some_
        | false =>
          have few := fewNames strip
          omega

def relocatableFlags : Flags where
  rflag := true
  sflag := false
  cflag := false
  nflag := false
  base := fun _ => none
  lign := fun _ => none

theorem link_relocatable_reference :
    ∃ out, link relocatableFlags [] [definingModule, referringModule] = some out ∧
      IndicesRight relocatableFlags [] [definingModule, referringModule] out := by
  have wellFormed : ∀ modul ∈ [definingModule, referringModule], modul.WellFormed := by
    intro modul member
    simp only [List.mem_cons, List.not_mem_nil, or_false] at member
    rcases member with rfl | rfl
    · exact definingModule_wellFormed
    · exact referringModule_wellFormed
  refine ⟨_, rfl, (link_relocatable_iff relocatableFlags [] [definingModule, referringModule] _ rfl
    wellFormed rfl rfl).mpr ⟨by decide, by decide, ?_⟩⟩
  intro strip
  cases strip

theorem namerelocate_type {relorig : Nat → Int} {name changed : Name}
    (ran : namerelocate relorig name = some changed) : changed.type = name.type := by
  simp only [namerelocate] at ran
  split at ran
  · cases ran
    rfl
  · split at ran
    · split at ran
      · cases ran
      · cases ran
        rfl
    · cases ran
      rfl

theorem firstPass_nerrors {flags : Flags} {undefs : List Str} {moduls : List Module} {scan : Scan}
    (noExternal : ∀ name ∈ moduls.flatMap Module.names, isExt name.type = false)
    (ran : firstPass flags undefs moduls = some scan) : scan.tables.nerrors = 0#16 := by
  apply Lib.foldlM_invariant (fun _ scan => scan.tables.nerrors = 0#16) rfl _ ran
  intro done modul before after member zero stepped
  obtain ⟨tables, named, _, same, _⟩ := extract_some stepped
  rw [same]
  apply Lib.foldlM_invariant (fun _ tables => tables.nerrors = 0#16) zero _ named
  intro _ name tables tables' inNames zero got
  obtain ⟨relocated, moved, rest⟩ := Option.bind_eq_some_iff.mp got
  have internal : isExt relocated.type = false := by
    rw [namerelocate_type moved]
    exact noExternal name (List.mem_flatMap.mpr ⟨modul, member, inNames⟩)
  rw [internal] at rest
  simp only [Bool.false_eq_true, if_false] at rest
  split at rest
  · cases rest
    exact zero
  · cases rest
    exact zero

/-- `NLocals` counts 65536 local names as none, and led says nothing about it. -/
theorem link_wraps_silently :
    ∃ (flags : Flags) (moduls : List Module) (out : Output), flags.rflag = true ∧
      flags.sflag = false ∧ (∀ modul ∈ moduls, modul.WellFormed) ∧
      link flags [] moduls = some out ∧ out.status = 0 ∧ ¬IndicesRight flags [] moduls out := by
  obtain ⟨scan, read⟩ := localsModules_firstPass relocatableFlags
    (show 65535 < 65536 by decide) (show 1 < 65536 by decide)
  have placed := firstPass_placed read
  have collected := firstPass_collected read
  have zero : scan.tables.nlocals.toNat = 0 := by
    have count := localsModules_count 65535 1
    rw [collected.counted, BitVec.toNat_ofNat, collected.locals_length,
      show relocatableFlags.sflag = false from rfl, count]
  obtain ⟨plan, evaluated⟩ : ∃ plan, evaluate relocatableFlags scan = some plan := by
    have sameFlags : undefinedFlags relocatableFlags scan.tables.globals = relocatableFlags := by
      simp [undefinedFlags, relocatableFlags]
    have aligned : ∀ s base, relocatableFlags.base s = some base →
        (relocatableFlags.lign s).getD 1#32 ≠ 0#32 →
        base % (relocatableFlags.lign s).getD 1#32 = 0#32 := by
      intro s base given
      cases given
    obtain ⟨outsect, completed⟩ := completeSections_isSome aligned
      (normCommons true scan.outsect scan.tables.globals).2 scan.nsect scan.outsect
    simp only [evaluate, sameFlags]
    exact ⟨_, by rw [show relocatableFlags.rflag = true from rfl, completed]; rfl⟩
  obtain ⟨sameFlags, _, _, _, nlocals⟩ := evaluate_relocatable rfl evaluated
  obtain ⟨pass, second⟩ := localsModules_secondPass plan placed
  have noLocals : localNames plan = some [] := by
    simp only [localNames, nlocals, zero, List.take_zero, List.mapM_nil]
    split <;> rfl
  have success : scan.tables.nerrors = 0#16 := by
    apply firstPass_nerrors _ read
    intro name member
    rw [localsModules_names member]
    decide
  obtain ⟨out, made, status⟩ : ∃ out, output relocatableFlags scan plan pass = some out ∧
      out.status = 0 := by
    simp only [output, noLocals, Option.bind_eq_bind, Option.bind_some]
    refine ⟨_, rfl, ?_⟩
    simp [stopStatus, success, relocatableFlags]
  refine ⟨relocatableFlags, [localsModule 65535, localsModule 1], out, rfl, rfl,
    localsModules_wellFormed (by decide) (by decide), ?_, status, ?_⟩
  · simp only [link, read, evaluated, second, Option.bind_eq_bind, Option.bind_some]
    exact made
  · intro right
    have count := localsModules_count 65535 1
    refine right.reported (Or.inr ⟨fun strip => absurd strip (by decide), ?_⟩) status
    rw [nameCount, show relocatableFlags.sflag = false from rfl, count]
    omega

end AckFormal.Led
