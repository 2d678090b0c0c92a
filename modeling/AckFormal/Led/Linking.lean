import AckFormal.Led.Emitted

/-!
# What led links

The bytes of the modules, the values of the names and the relocated fields in the
output, for modules that are well formed and fit.
-/

namespace AckFormal.Led

open List (length_append length_map map_cons mem_append_left mem_cons_self mem_filter mem_flatMap
  mem_map mem_of_getElem?)

section Tables

variable {flags : Flags} {undefs : List Str} {moduls : List Module} {tables : Tables}

variable {name entry : Name} {string : Str}

theorem lookup_of_mem {tab : SymTab} (distinct : (tab.names.map Name.str).Nodup)
    (member : name ∈ tab.names) : tab.lookup name.str = some name := by
  cases found : tab.lookup name.str with
  | none => exact absurd rfl (SymTab.lookup_none.mp found name member)
  | some other =>
    have same := SymTab.lookup_str found
    have inTable := SymTab.lookup_mem found
    rw [List.inj_on_of_nodup_map distinct inTable member same]

/-- What does not depend on the values is the same for the placed names. -/
theorem namesFrom_map {α : Type*} (f : Name → α)
    (same : ∀ before name, f (Name.placed before name) = f name) (before moduls : List Module) :
    (namesFrom before moduls).map f = (moduls.flatMap Module.names).map f := by
  induction moduls generalizing before with
  | nil => rfl
  | cons first rest ih =>
    simp only [namesFrom, List.map_append, List.flatMap_cons, ih, List.map_map]
    congr 1
    exact List.map_congr_left (fun name _ => same before name)

/-- An external name of a module is among the placed names. -/
theorem exists_placed (property : BitVec 16 → Prop) :
    (∃ name ∈ externals (namesFrom [] moduls) string, property name.type) ↔
      ∃ modul ∈ moduls, ∃ name ∈ modul.names,
        isExt name.type = true ∧ name.str = string ∧ property name.type := by
  constructor
  · rintro ⟨name, member, holds⟩
    obtain ⟨inNames, ext, same⟩ : name ∈ namesFrom [] moduls ∧ isExt name.type = true ∧
        name.str = string := by
      simpa [externals] using member
    obtain ⟨k, modul, origin, atK, inModul, rfl⟩ := namesFrom_mem inNames
    rw [placed_type] at ext holds
    rw [placed_str] at same
    exact ⟨modul, mem_of_getElem? atK, origin, inModul, ext, same, holds⟩
  · rintro ⟨modul, inModuls, name, inModul, ext, same, holds⟩
    obtain ⟨k, atK⟩ := List.mem_iff_getElem?.mp inModuls
    have placed : name.placed (moduls.take k) ∈ namesFrom [] moduls :=
      mem_namesFrom atK inModul
    refine ⟨name.placed (moduls.take k), ?_, by rw [placed_type]; exact holds⟩
    simp only [externals, mem_filter, Bool.and_eq_true, beq_iff_eq]
    rw [placed_type, placed_str]
    exact ⟨placed, ext, same⟩

/-- A string that the table has is the string of a flag `-u` or of an external name. -/
theorem Collected.mem_globalStrings
    (collected : Collected flags.sflag undefs (namesFrom [] moduls) tables)
    (known : tables.globals.lookup string = some entry) : string ∈ globalStrings undefs moduls := by
  rw [collected.lookup] at known
  by_cases undef : string ∈ undefs
  · exact mem_append_left _ undef
  · cases names : externals (namesFrom [] moduls) string with
    | nil =>
      simp only [undefEntry, undef, names] at known
      cases known
    | cons first rest =>
      have some_ : ∃ name ∈ externals (namesFrom [] moduls) string, True :=
        ⟨first, by rw [names]; exact mem_cons_self, trivial⟩
      obtain ⟨modul, inModuls, name, inModul, ext, rfl, _⟩ :=
        (exists_placed fun _ => True).mp some_
      apply List.mem_append_right
      apply List.mem_map_of_mem
      rw [mem_filter]
      exact ⟨mem_flatMap.mpr ⟨modul, inModuls, inModul⟩, ext⟩

theorem resolve_isSome (names : List Name) (entry : Name) :
    ∃ final, resolve (some entry) names = some final := by
  induction names generalizing entry with
  | nil => exact ⟨entry, rfl⟩
  | cons name rest ih => exact ih (meet name entry)

section

variable (collected : Collected flags.sflag undefs (namesFrom [] moduls) tables)
include collected

theorem Collected.known (global : string ∈ globalStrings undefs moduls) :
    ∃ entry, tables.globals.lookup string = some entry := by
  rw [collected.lookup]
  by_cases undef : string ∈ undefs
  · simp only [undefEntry, undef]
    exact resolve_isSome _ _
  · rcases List.mem_append.mp global with inUndefs | inNames
    · exact absurd inUndefs undef
    · obtain ⟨name, member, rfl⟩ := mem_map.mp inNames
      rw [mem_filter] at member
      obtain ⟨modul, inModuls, inModul⟩ := mem_flatMap.mp member.1
      obtain ⟨placed, inList, _⟩ := (exists_placed fun _ => True).mpr
        ⟨modul, inModuls, name, inModul, member.2, rfl, trivial⟩
      cases names : externals (namesFrom [] moduls) name.str with
      | nil =>
        rw [names] at inList
        cases inList
      | cons first rest =>
        simp only [undefEntry, undef]
        exact resolve_isSome rest first

theorem Collected.length_eq :
    tables.globals.names.length = (globalStrings undefs moduls).dedup.length := by
  have subset : tables.globals.names.map Name.str ⊆ (globalStrings undefs moduls).dedup := by
    intro string member
    obtain ⟨name, inTable, rfl⟩ := mem_map.mp member
    rw [List.mem_dedup]
    exact collected.mem_globalStrings (lookup_of_mem collected.distinct inTable)
  have superset : (globalStrings undefs moduls).dedup ⊆ tables.globals.names.map Name.str := by
    intro string member
    obtain ⟨entry, known⟩ := collected.known (List.mem_dedup.mp member)
    exact mem_map.mpr ⟨entry, SymTab.lookup_mem known, SymTab.lookup_str known⟩
  have short := (collected.distinct.subperm subset).length_le
  have long := ((List.nodup_dedup _).subperm superset).length_le
  rw [length_map] at short long
  exact Nat.le_antisymm short long

theorem Collected.locals_length :
    tables.locals.length = (savedLocals flags.sflag (moduls.flatMap Module.names)).length := by
  have same := namesFrom_map
    (fun name => !isExt name.type && !flags.sflag && name.mustsavelocal)
    (fun before name => by simp only [Name.mustsavelocal, placed_type]) [] moduls
  have counts : ∀ names : List Name, (savedLocals flags.sflag names).length =
      (names.map (fun name => !isExt name.type && !flags.sflag && name.mustsavelocal)).count
        true := by
    intro names
    rw [savedLocals, ← List.countP_eq_length_filter, List.count, List.countP_map]
    congr 1
    funext name
    simp
  rw [collected.locals, counts, counts, same]

/-- If every name is defined the table has no undefined name. -/
theorem Collected.defined
    (defined : AllDefined undefs moduls) (known : tables.globals.lookup string = some entry) :
    entry.isUndefined = false := by
  obtain ⟨modul, inModuls, name, inModul, ext, same, some_⟩ :=
    defined string (collected.mem_globalStrings known)
  obtain ⟨placed, inList, placedDefined⟩ :=
    (exists_placed fun type => (type &&& 0xff#16 == 0x80#16) = false).mpr
      ⟨modul, inModuls, name, inModul, ext, same, some_⟩
  rw [collected.lookup] at known
  exact resolve_not_undefined inList placedDefined entry known

/-- A name that is defined once has its own type and value in the table. -/
theorem Collected.definition
    (single : SingleDefined moduls) {k : Nat} {modul : Module} (atK : moduls[k]? = some modul)
    (inModul : name ∈ modul.names) (defines : name.defines = true) :
    ∃ entry, tables.globals.lookup name.str = some entry ∧
      entry.SameData (name.placed (moduls.take k)) := by
  have inNames : name.placed (moduls.take k) ∈ namesFrom [] moduls := mem_namesFrom atK inModul
  have ext : isExt name.type = true := by
    simp only [Name.defines, Bool.and_eq_true] at defines
    exact defines.1.1
  have inList : name.placed (moduls.take k) ∈ externals (namesFrom [] moduls) name.str := by
    simp only [externals, mem_filter, Bool.and_eq_true, beq_iff_eq]
    rw [placed_type, placed_str]
    exact ⟨inNames, ext, rfl⟩
  have apart : (namesFrom [] moduls).Pairwise fun a b =>
      ¬(a.defines = true ∧ b.defines = true ∧ a.str = b.str) := by
    have pairs := namesFrom_map (fun name => (name.defines, name.str))
      (fun before name => by rw [placed_defines, placed_str]) [] moduls
    have mapped : ∀ names : List Name,
        (names.Pairwise fun a b => ¬(a.defines = true ∧ b.defines = true ∧ a.str = b.str)) ↔
          (names.map (fun name => (name.defines, name.str))).Pairwise
            fun a b => ¬(a.1 = true ∧ b.1 = true ∧ a.2 = b.2) := by
      intro names
      rw [List.pairwise_map]
    rw [mapped, pairs, ← mapped]
    exact single
  obtain ⟨before, after, split⟩ := List.append_of_mem inList
  have apartList : (externals (namesFrom [] moduls) name.str).Pairwise fun a b =>
      ¬(a.defines = true ∧ b.defines = true ∧ a.str = b.str) :=
    apart.sublist List.filter_sublist
  rw [split, List.pairwise_append] at apartList
  have inExternals : ∀ n ∈ before, isExt n.type = true ∧ n.str = name.str := by
    intro n member
    have inAll : n ∈ externals (namesFrom [] moduls) name.str := by
      rw [split]
      exact mem_append_left _ member
    simpa [externals] using (mem_filter.mp inAll).2
  have placedDefines : (name.placed (moduls.take k)).defines = true := by
    rw [placed_defines]
    exact defines
  rw [collected.lookup, split]
  apply resolve_definition placedDefines (fun n member => (inExternals n member).1)
  · intro n member
    by_contra other
    apply apartList.2.2 n member _ mem_cons_self
    refine ⟨by simpa using other, placedDefines, ?_⟩
    rw [placed_str]
    exact (inExternals n member).2
  · intro e initial
    left
    simp only [undefEntry] at initial
    split at initial
    · cases initial
      change (0x80#16 &&& 0xff#16 == 0x80#16) = true
      decide
    · cases initial

end

theorem isAbsolute_styp (absolute : name.isAbsolute = true) : styp name.type = sAbs := by
  simp only [Name.isAbsolute, beq_iff_eq] at absolute
  have bits := congrArg (· &&& 0x7f#16) absolute
  simp only [BitVec.and_assoc] at bits
  have mask : (0xff#16 &&& 0x7f#16) = 0x7f#16 := by decide
  have value : (0x81#16 &&& 0x7f#16) = 1#16 := by decide
  rw [mask, value] at bits
  simp only [styp, bits]
  rfl

variable (collected : Collected flags.sflag undefs (namesFrom [] moduls) tables)
include collected

/-- The type of an entry is that of a name of a module, or of a name that is only given by `-u`. -/
theorem Collected.entry_type
    (known : tables.globals.lookup string = some entry) (property : BitVec 16 → Prop)
    (all : ∀ modul ∈ moduls, ∀ name ∈ modul.names, isExt name.type = true → property name.type)
    (given : property 0x80#16) : property entry.type := by
  rw [collected.lookup] at known
  refine resolve_type property (fun name member => ?_) (fun e initial => ?_) entry known
  · by_contra wrong
    obtain ⟨modul, inModuls, origin, inModul, ext, -, bad⟩ :=
      (exists_placed fun type => ¬property type).mp ⟨name, member, wrong⟩
    exact bad (all modul inModuls origin inModul ext)
  · simp only [undefEntry] at initial
    split at initial
    · cases initial
      exact given
    · cases initial

theorem Collected.common (wellFormed : ∀ modul ∈ moduls, modul.WellFormed)
    (known : tables.globals.lookup string = some entry) (common : entry.isCommon = true) :
    entry.isAbsolute = false := by
  have all : isCom entry.type = true → isExt entry.type = true → sMin ≤ styp entry.type := by
    refine collected.entry_type known
      (fun type => isCom type = true → isExt type = true → sMin ≤ styp type) ?_ ?_
    · intro modul inModuls name inModul ext com _
      exact (((wellFormed modul inModuls).common name inModul com).mp ext).1
    · exact fun com => absurd com (by decide)
  rw [isCommon_eq, Bool.and_eq_true] at common
  have inSection := all common.1 common.2
  by_contra absolute
  have fixed := isAbsolute_styp (by simpa using absolute)
  rw [fixed] at inSection
  exact absurd inSection (by decide)

end Tables

/-! ## The output -/

/-- What a relocation refers to, and what that is worth in the output. -/
def Target (moduls : List Module) (k : Nat) (modul : Module) (relo : Relo) (out : Output)
    (target : Int) : Prop :=
  match modul.names[relo.nami.toNat]? with
  | none => target = 0
  | some name =>
    if isSct name.type then
      let s := styp name.type - sMin
      target = (out.outsect s).base.toNat + (offset (moduls.take k) s : Int)
    else ∃ entry, out.symbols.lookup name.str = some entry ∧ target = entry.valu.toNat

/-- What a pc-relative relocation in section `t` takes off. -/
def pcOffset (moduls : List Module) (k : Nat) (relo : Relo) (out : Output) : Int :=
  let t := relo.sect.toNat - sMin
  if relpc relo.type then
    (out.outsect t).base.toNat + (offset (moduls.take k) t : Int)
  else 0

structure LinkedRight (flags : Flags) (moduls : List Module) (out : Output) : Prop where
  bytes : ∀ (k : Nat) (modul : Module), moduls[k]? = some modul → ∀ s i, i < modul.flen s →
    (out.outsect s).foff.toNat + offset (moduls.take k) s + i <
        szHead + out.nsect * szSect + out.nemit.toNat ∧
      ((∀ relo ∈ modul.relos, (s, i) ∉ modul.field relo) →
        out.file ((out.outsect s).foff.toNat + offset (moduls.take k) s + i) =
          (modul.sect s).contents i)
  globals : ∀ (k : Nat) (modul : Module), moduls[k]? = some modul → ∀ name ∈ modul.names,
    name.defines = true → name.located = true →
    ∃ entry, out.symbols.lookup name.str = some entry ∧
      (flags.sflag = false → entry ∈ out.names) ∧ entry.type = name.type ∧
      entry.valu = (out.outsect (styp name.type - sMin)).base +
        BitVec.ofNat 32 (offset (moduls.take k) (styp name.type - sMin)) + name.valu
  locals : ∀ (k : Nat) (modul : Module), moduls[k]? = some modul → ∀ name ∈ modul.names,
    isExt name.type = false → flags.sflag = false → name.mustsavelocal = true →
    name.located = true →
    ∃ entry ∈ out.names, entry.str = name.str ∧ entry.type = name.type ∧
      entry.valu = (out.outsect (styp name.type - sMin)).base +
        BitVec.ofNat 32 (offset (moduls.take k) (styp name.type - sMin)) + name.valu
  fields : ∀ (k : Nat) (modul : Module), moduls[k]? = some modul → ∀ relo ∈ modul.relos,
    ∀ kind modulus, relsz relo.type = some kind → kind.modulus = some modulus →
    let t := relo.sect.toNat - sMin
    ∃ old new target,
      getvalu (window (modul.sect t).contents relo.addr.toNat) relo.type = some old ∧
      getvalu (window out.file ((out.outsect t).foff.toNat + offset (moduls.take k) t +
        relo.addr.toNat)) relo.type = some new ∧
      Target moduls k modul relo out target ∧
      (new.toNat : Int) =
        ((old.toNat : Int) + target - pcOffset moduls k relo out) % (modulus : Int)
  counted : flags.sflag = false → out.nname.toNat = out.names.length

section Output

variable {flags : Flags} {undefs : List Str} {moduls : List Module} {scan : Scan} {plan : Plan}
  {pass : Pass2} {out : Output}

theorem take_rounding (fits : Fits flags undefs moduls) (k s : Nat) :
    start (moduls.take k) s = offset (moduls.take k) s :=
  start_eq_offset (fun modul member => fits.rounding modul (List.mem_of_mem_take member)) s

theorem flenBefore_eq (placed : Placed moduls scan) (s : Nat)
    (small : ((List.range s).map (stop moduls)).sum < 4294967296) :
    flenBefore scan.outsect s = ((List.range s).map (stop moduls)).sum := by
  have part : ∀ n, n ≤ s → flenBefore scan.outsect n = ((List.range n).map (stop moduls)).sum := by
    intro n
    induction n with
    | zero => intro _; rfl
    | succ n ih =>
      intro bound
      have sub : ((List.range (n + 1)).map (stop moduls)).sum ≤
          ((List.range s).map (stop moduls)).sum := by
        apply List.Sublist.sum_le_sum
        · apply List.Sublist.map
          exact List.range_sublist.mpr bound
        · intro _ _
          exact Nat.zero_le _
      rw [List.range_succ, List.map_append, List.sum_append] at sub ⊢
      simp only [map_cons, List.map_nil, List.sum_cons, List.sum_nil, Nat.add_zero] at sub ⊢
      rw [flenBefore_succ, ih (by omega), placed.flen, BitVec.toNat_ofNat,
        Nat.mod_eq_of_lt (by omega)]
  exact part s (Nat.le_refl s)

variable {s k : Nat} {name : Name} {modul : Module}

theorem stop_of_le (absent : sectionCount moduls ≤ s) : stop moduls s = 0 := by
  induction moduls with
  | nil => rfl
  | cons first rest ih =>
    simp only [sectionCount, map_cons, List.foldr_cons] at absent ih
    simp only [stop, ih (by omega)]
    exact flen_of_le (by omega)

theorem sum_stop_le (moduls : List Module) {m n : Nat} (short : m ≤ n) :
    ((List.range m).map (stop moduls)).sum ≤ ((List.range n).map (stop moduls)).sum := by
  apply List.Sublist.sum_le_sum
  · exact List.Sublist.map _ (List.range_sublist.mpr short)
  · intro _ _
    exact Nat.zero_le _

theorem sum_stop_succ (s : Nat) : ((List.range (s + 1)).map (stop moduls)).sum =
    ((List.range s).map (stop moduls)).sum + stop moduls s := by
  simp [List.range_succ]

theorem sectionCount_few (wellFormed : ∀ modul ∈ moduls, modul.WellFormed) :
    sectionCount moduls ≤ maxsect := by
  induction moduls with
  | nil => exact Nat.zero_le _
  | cons first rest ih =>
    have later := ih (fun modul member => wellFormed modul (List.mem_cons_of_mem _ member))
    have here := (wellFormed first mem_cons_self).few
    simp only [sectionCount, map_cons, List.foldr_cons] at later ⊢
    omega

theorem foff_eq (fits : Fits flags undefs moduls) (placed : Placed moduls scan) {comm : Nat → Int} {outsect : Nat → OutSect}
    (completed : completeSections flags comm scan.nsect scan.outsect = some outsect)
    (bytes : stop moduls s ≠ 0) :
    (outsect s).foff.toNat = szHead + sectionCount moduls * szSect +
      ((List.range s).map (stop moduls)).sum := by
  have nsect : scan.nsect = sectionCount moduls := placed.nsect
  obtain ⟨layout, ran, same⟩ := Option.bind_eq_some_iff.mp completed
  cases same
  have done := completeLoop _ ran
  have total := fits.foff s bytes
  have present : s < sectionCount moduls := by
    by_contra absent
    exact bytes (stop_of_le (Nat.not_lt.mp absent))
  rw [done.foff s (by omega), nsect, ← BitVec.ofNat_add, BitVec.toNat_ofNat,
    flenBefore_eq placed s (by omega)]
  exact Nat.mod_eq_of_lt (by omega)

theorem link_some (linked : link flags undefs moduls = some out) :
    ∃ scan plan pass, firstPass flags undefs moduls = some scan ∧ evaluate flags scan = some plan ∧
      secondPass plan scan = some pass ∧ output flags scan plan pass = some out := by
  obtain ⟨scan, first, rest⟩ := Option.bind_eq_some_iff.mp linked
  obtain ⟨plan, evaluated, rest⟩ := Option.bind_eq_some_iff.mp rest
  obtain ⟨pass, second, made⟩ := Option.bind_eq_some_iff.mp rest
  exact ⟨scan, plan, pass, first, evaluated, second, made⟩

/-- The parts of the output that come straight from the passes. -/
theorem output_some (made : output flags scan plan pass = some out) :
    out.nsect = plan.nsect ∧ out.nemit = scan.nemit ∧ out.outsect = plan.outsect ∧
      (∀ s, out.emits s = ⟨(scan.emits s).full, pass.emits s⟩) ∧ out.symbols = plan.globals ∧
      (plan.flags.sflag = false → ∃ locals,
        (plan.locals.take plan.nlocals.toNat).mapM (doCrs plan) = some locals ∧
        out.names = locals ++ (plan.globals.names ++ sectionNames plan).take
          (plan.globals.nglobals.toNat + plan.nsect) ∧
        out.nname = plan.nlocals + plan.globals.nglobals + BitVec.ofNat 16 plan.nsect) := by
  obtain ⟨locals, crs, same⟩ := Option.bind_eq_some_iff.mp made
  cases same
  refine ⟨rfl, rfl, rfl, fun _ => rfl, rfl, ?_⟩
  intro keep
  simp only [localNames, keep, Bool.false_eq_true, if_false] at crs ⊢
  exact ⟨locals, crs, rfl, trivial⟩

theorem mapM_made {α β : Type*} {f : α → Option β} {list : List α} {made : List β}
    (ran : list.mapM f = some made) :
    made.length = list.length ∧ ∀ (i : Nat) a, list[i]? = some a → made[i]? = f a := by
  induction list generalizing made with
  | nil =>
    cases ran
    exact ⟨rfl, nofun⟩
  | cons first rest ih =>
    rw [List.mapM_cons] at ran
    obtain ⟨head, atHead, more⟩ := Option.bind_eq_some_iff.mp ran
    obtain ⟨tail, atTail, same⟩ := Option.bind_eq_some_iff.mp more
    cases same
    obtain ⟨length, each⟩ := ih atTail
    refine ⟨congrArg (· + 1) length, fun i a here => ?_⟩
    cases i with
    | zero =>
      cases here
      exact atHead.symm
    | succ i => exact each i a here

theorem no_undefined (collected : Collected flags.sflag undefs (namesFrom [] moduls) scan.tables)
    (defined : AllDefined undefs moduls) : someUndefined scan.tables.globals = false := by
  rw [someUndefined, List.any_eq_false]
  intro name member
  have known := lookup_of_mem collected.distinct (List.mem_of_mem_take member)
  simp [collected.defined defined known]

theorem addbase_located {outsect : Nat → OutSect} (located : name.located = true) :
    addbase outsect name =
      { name with valu := name.valu + (outsect (styp name.type - sMin)).base } := by
  simp only [Name.located, Bool.and_eq_true, Bool.not_eq_true', decide_eq_false_iff_not] at located
  rw [addbase]
  simp only [located.1, if_false, located.2, Bool.false_eq_true]

theorem addbase_type (outsect : Nat → OutSect) (name : Name) :
    (addbase outsect name).type = name.type := by
  simp only [addbase]
  split
  · rfl
  · split <;> rfl

theorem located_of_type {a b : Name} (same : a.type = b.type) : a.located = b.located := by
  simp only [Name.located, same]

theorem placed_valu {before : List Module} (located : name.located = true) :
    (name.placed before).valu =
      name.valu + BitVec.ofNat 32 (start before (styp name.type - sMin)) := by
  rw [Name.placed, if_pos located]

theorem final_settled (outsect : Nat → OutSect) {old middle : Name} (normed : Normed old middle)
    (defined : old.isUndefined = false) (common : old.isCommon = true → old.isAbsolute = false) :
    (addbase outsect middle).isCommon = false ∧ (addbase outsect middle).isUndefined = false := by
  rw [isCommon_of_type (addbase_type outsect middle),
    isUndefined_of_type (addbase_type outsect middle)]
  rcases normed with ⟨kept, rfl⟩ | ⟨_, valu, rfl⟩
  · refine ⟨?_, defined⟩
    by_contra isCommon
    have isCommon : middle.isCommon = true := by simpa using isCommon
    simp [isCommon, common isCommon] at kept
  · constructor
    · rw [isCommon_eq, isCom_clear_common]
      rfl
    · rw [isUndefined_clear_common]
      exact defined

/-- What led does between reading well-formed modules that fit and writing the file. -/
structure Links (flags : Flags) (undefs : List Str) (moduls : List Module) (scan : Scan)
    (plan : Plan) (out : Output) : Prop where
  placed : Placed moduls scan
  collected : Collected flags.sflag undefs (namesFrom [] moduls) scan.tables
  fewGlobals : scan.tables.globals.names.length < 65536
  fewLocals : scan.tables.locals.length < 65536
  flags_eq : plan.flags = flags
  nsect : plan.nsect = sectionCount moduls
  globals : plan.globals = finalTable scan.outsect plan.outsect scan.tables.globals
  locals : plan.locals = scan.tables.locals.map (addbase plan.outsect)
  nlocals : plan.nlocals.toNat = scan.tables.locals.length
  relocated : Relocated moduls plan (fun s => (out.emits s).bytes)
  foff : ∀ s, stop moduls s ≠ 0 → (plan.outsect s).foff.toNat =
    szHead + sectionCount moduls * szSect + ((List.range s).map (stop moduls)).sum
  outNsect : out.nsect = sectionCount moduls
  outNemit : out.nemit.toNat = ((List.range maxsect).map (stop moduls)).sum
  outsect : out.outsect = plan.outsect
  full : ∀ s, (out.emits s).full = stop moduls s
  symbols : out.symbols = plan.globals
  names : flags.sflag = false → ∃ locals, plan.locals.mapM (doCrs plan) = some locals ∧
    out.names = locals ++ (plan.globals.names ++ sectionNames plan)
  nname : flags.sflag = false → out.nname = BitVec.ofNat 16 (scan.tables.locals.length +
    scan.tables.globals.names.length + sectionCount moduls)

/-- A link that ends has gone through a scan and a plan that fit together. -/
theorem link_links (rflag : flags.rflag = false) (nflag : flags.nflag = false)
    (wellFormed : ∀ modul ∈ moduls, modul.WellFormed) (defined : AllDefined undefs moduls)
    (fits : Fits flags undefs moduls) (linked : link flags undefs moduls = some out) :
    ∃ scan plan, Links flags undefs moduls scan plan out := by
  obtain ⟨scan, plan, pass, first, evaluated, second, made⟩ := link_some linked
  have placed := firstPass_placed first
  have collected := firstPass_collected first
  have fewGlobals : scan.tables.globals.names.length < 65536 := collected.length_eq ▸ fits.globals
  have fewLocals : scan.tables.locals.length < 65536 := collected.locals_length ▸ fits.locals
  obtain ⟨sameFlags, nsect, globals, locals, nlocals, comm, completed⟩ :=
    evaluate_final rflag nflag (no_undefined collected defined) evaluated
  obtain ⟨outNsect, outNemit, outOutsect, outEmits, outSymbols, outNames⟩ := output_some made
  have allLocals : scan.tables.nlocals.toNat = scan.tables.locals.length := by
    rw [collected.counted, BitVec.toNat_ofNat]
    exact Nat.mod_eq_of_lt fewLocals
  have mapped : plan.locals = scan.tables.locals.map (addbase plan.outsect) := by
    rw [locals, changeLoop, allLocals, List.take_length, List.drop_length, List.append_nil]
  have nemit := firstPass_nemit wellFormed first
  refine ⟨scan, plan, placed, collected, fewGlobals, fewLocals, sameFlags,
    nsect.trans placed.nsect, globals, mapped, by rw [nlocals]; exact allLocals, ?_, ?_,
    outNsect.trans (nsect.trans placed.nsect), ?_, outOutsect, ?_, outSymbols, ?_, ?_⟩
  · have relocated := secondPass_relocated wellFormed fits placed second
    simpa only [outEmits] using relocated
  · intro s bytes
    exact foff_eq fits placed completed bytes
  · rw [outNemit, nemit, BitVec.toNat_ofNat]
    exact Nat.mod_eq_of_lt fits.nemit
  · intro s
    rw [outEmits]
    exact placed.full s
  · intro keep
    obtain ⟨written, crs, names, _⟩ := outNames (by rw [sameFlags]; exact keep)
    refine ⟨written, ?_, ?_⟩
    · have allWritten : plan.locals.length ≤ plan.nlocals.toNat := by
        rw [mapped, length_map, nlocals, allLocals]
      rw [List.take_of_length_le allWritten] at crs
      exact crs
    · rw [names, List.take_of_length_le]
      have count : plan.globals.names.length < 65536 := by
        rw [globals, finalTable, rewriteCounted_names _ _ (normCommons_few _ fewGlobals),
          length_map]
        exact normCommons_few _ fewGlobals
      rw [nglobals_toNat count, length_append]
      simp [sectionNames]
  · intro keep
    obtain ⟨_, _, _, nname⟩ := outNames (by rw [sameFlags]; exact keep)
    have same : plan.globals.nglobals = scan.tables.globals.nglobals := by
      rw [globals]
      rfl
    have count : plan.nsect = sectionCount moduls := nsect.trans placed.nsect
    rw [nname, nlocals, collected.counted, same, SymTab.counted, count, BitVec.ofNat_add,
      BitVec.ofNat_add]

section

variable (links : Links flags undefs moduls scan plan out)
include links

/-- The header counts the names if and only if their sum does not wrap. -/
theorem Links.counted (keep : flags.sflag = false) :
    out.nname.toNat = out.names.length ↔
      (savedLocals flags.sflag (moduls.flatMap Module.names)).length +
        (globalStrings undefs moduls).dedup.length + sectionCount moduls < 65536 := by
  obtain ⟨locals, crs, names⟩ := links.names keep
  have globals : plan.globals.names.length = scan.tables.globals.names.length := by
    rw [links.globals, finalTable, rewriteCounted_names _ _ (normCommons_few _ links.fewGlobals),
      length_map, normCommons_names _ links.fewGlobals,
      ← (normLoop_normed _ _ scan.tables.globals.names).length_eq]
  have count : out.names.length = scan.tables.locals.length +
      scan.tables.globals.names.length + sectionCount moduls := by
    rw [names, length_append, (mapM_made crs).1, links.locals, length_map,
      length_append, globals]
    simp only [sectionNames, length_map, List.length_range, links.nsect]
    omega
  rw [count, links.nname keep, BitVec.toNat_ofNat, links.collected.length_eq,
    links.collected.locals_length]
  exact ⟨fun same => same ▸ Nat.mod_lt _ (by decide), Nat.mod_eq_of_lt⟩

/-- The bytes of a section are in the file from its offset on. -/
theorem Links.file (few : sectionCount moduls ≤ maxsect) {i : Nat} (bound : i < stop moduls s) :
    out.file ((out.outsect s).foff.toNat + i) = (out.emits s).bytes i := by
  have present : s < sectionCount moduls := by
    by_contra absent
    rw [stop_of_le (Nat.not_lt.mp absent)] at bound
    omega
  apply file_at
  · rw [links.full]
    exact bound
  · omega
  · intro t later _
    by_cases empty : stop moduls t = 0
    · left
      rw [links.full]
      exact empty
    · right
      rw [links.outsect, links.foff s (by omega), links.foff t empty]
      have grows := sum_stop_le moduls (Nat.succ_le_of_lt later)
      rw [Nat.succ_eq_add_one, sum_stop_succ] at grows
      omega

theorem Links.stop_inside {i : Nat}
    (atK : moduls[k]? = some modul) (bound : i < modul.flen s) :
    start (moduls.take k) s + i < stop moduls s := by
  have inside := links.placed.inside k modul atK s (by omega)
  omega

/-- A global name has its address in the symbol table of the output. -/
theorem Links.global
    (single : SingleDefined moduls) (atK : moduls[k]? = some modul) (inModul : name ∈ modul.names)
    (defines : name.defines = true) (located : name.located = true) :
    ∃ entry, out.symbols.lookup name.str = some entry ∧ entry.type = name.type ∧
      entry.valu = (out.outsect (styp name.type - sMin)).base +
        BitVec.ofNat 32 (start (moduls.take k) (styp name.type - sMin)) + name.valu := by
  obtain ⟨entry, known, sameType, sameValu, _⟩ :=
    links.collected.definition single atK inModul defines
  rw [placed_type] at sameType
  rw [placed_valu located] at sameValu
  obtain ⟨middle, normed, final⟩ := finalTable_lookup scan.outsect plan.outsect links.fewGlobals known
  have notCommon : entry.isCommon = false := by
    simp only [Name.defines, Bool.and_eq_true, Bool.not_eq_true'] at defines
    rw [isCommon_of_type sameType]
    exact defines.2
  have same : middle = entry := by
    rcases normed with ⟨_, same⟩ | ⟨common, _⟩
    · exact same
    · simp [notCommon] at common
  subst same
  have entryLocated : middle.located = true := by
    rw [located_of_type sameType]
    exact located
  refine ⟨addbase plan.outsect middle, ?_, ?_, ?_⟩
  · rw [links.symbols, links.globals]
    exact final
  · rw [addbase_type, sameType]
  · rw [addbase_located entryLocated, links.outsect, sameType]
    simp only [sameValu]
    ring

/-- What a relocation refers to is found where the plan has put it. -/
theorem Links.target
    (wellFormed : ∀ modul ∈ moduls, modul.WellFormed) (defined : AllDefined undefs moduls)
    (fits : Fits flags undefs moduls) {relo : Relo} (atK : moduls[k]? = some modul)
    (inRelos : relo ∈ modul.relos) {nami : BitVec 16} {target : Int}
    (found : refer plan (originsOf moduls k) modul.names relo 0 = some (nami, target)) :
    Target moduls k modul relo out target := by
  have good := wellFormed modul (mem_of_getElem? atK)
  unfold refer at found
  unfold Target
  cases atName : modul.names[relo.nami.toNat]? with
  | none =>
    simp only [atName] at found
    cases found
    rfl
  | some name =>
    simp only [atName] at found ⊢
    unfold addrelo at found
    rcases good.refers relo inRelos name atName with ⟨sct, _, _⟩ | ⟨sct, ext⟩
    · simp only [sct, if_true, Option.some.injEq, Prod.mk.injEq] at found ⊢
      rw [← found.2, links.outsect, originsOf, take_rounding fits]
      ring
    · simp only [sct] at found ⊢
      cases searched : plan.globals.searchname name.str with
      | none => simp only [searched] at found; cases found
      | some i =>
        simp only [searched] at found
        cases here : plan.globals.names[i]? with
        | none => simp only [here] at found; cases found
        | some entry =>
          simp only [here] at found
          have known : plan.globals.lookup name.str = some entry := by
            rw [SymTab.lookup, searched]
            exact here
          have global : name.str ∈ globalStrings undefs moduls := by
            apply List.mem_append_right
            apply List.mem_map_of_mem
            rw [mem_filter]
            exact ⟨mem_flatMap.mpr ⟨modul, mem_of_getElem? atK,
              mem_of_getElem? atName⟩, ext⟩
          obtain ⟨old, knownOld⟩ := links.collected.known global
          obtain ⟨middle, normed, final⟩ :=
            finalTable_lookup scan.outsect plan.outsect links.fewGlobals knownOld
          rw [← links.globals, known] at final
          cases final
          have settled := final_settled plan.outsect normed
            (links.collected.defined defined knownOld)
            (links.collected.common wellFormed knownOld)
          simp only [settled, Bool.or_self, Bool.false_eq_true, if_false, Option.some.injEq,
            Prod.mk.injEq] at found
          refine ⟨addbase plan.outsect middle, ?_, by omega⟩
          rw [links.symbols]
          exact known

end

/-- `BitVec.ofInt` takes the value modulo the width, and so does a smaller field. -/
theorem ofInt_toNat_mod (valu : Int) {modulus : Nat} (divides : modulus ∣ 4294967296) :
    ((BitVec.ofInt 32 valu).toNat % modulus : Nat) = valu % (modulus : Int) := by
  have whole : ((BitVec.ofInt 32 valu).toNat : Int) = valu % 4294967296 := by
    rw [BitVec.toNat_ofInt]
    rw [Int.toNat_of_nonneg]
    · rfl
    · exact Int.emod_nonneg _ (by decide)
  rw [Int.natCast_mod, whole]
  apply Int.emod_emod_of_dvd
  exact_mod_cast divides

theorem modulus_dvd {kind : Relsz} {modulus : Nat} (plain : kind.modulus = some modulus) :
    modulus ∣ 4294967296 := by
  cases kind with
  | relo1 => cases plain; decide
  | relo2 => cases plain; decide
  | relo4 => cases plain; decide
  | _ => cases plain

/-- Where the parts of the link fit, every relocated field is right. -/
theorem Links.right (links : Links flags undefs moduls scan plan out)
    (wellFormed : ∀ modul ∈ moduls, modul.WellFormed) (defined : AllDefined undefs moduls)
    (single : SingleDefined moduls) (fits : Fits flags undefs moduls)
    (namesFit : NamesFit flags undefs moduls) : LinkedRight flags moduls out := by
  have few := sectionCount_few wellFormed
  constructor
  case bytes =>
    intro k modul atK s i bound
    have inStop := links.stop_inside atK bound
    have present : s < sectionCount moduls := by
      by_contra absent
      rw [stop_of_le (Nat.not_lt.mp absent)] at inStop
      omega
    constructor
    · have grows := sum_stop_le moduls (Nat.le_trans (Nat.succ_le_of_lt present) few)
      rw [Nat.succ_eq_add_one, sum_stop_succ] at grows
      rw [links.outsect, links.foff s (by omega), links.outNsect, links.outNemit, ← take_rounding fits]
      omega
    · intro free
      rw [Nat.add_assoc, ← take_rounding fits, links.file few inStop]
      exact links.relocated.bytes k modul atK s i bound free
  case globals =>
    intro k modul atK name inModul defines located
    obtain ⟨entry, known, sameType, valu⟩ := links.global single atK inModul defines located
    refine ⟨entry, known, ?_, sameType, ?_⟩
    · intro keep
      obtain ⟨locals, _, names⟩ := links.names keep
      rw [names]
      rw [links.symbols] at known
      exact List.mem_append_right _ (mem_append_left _ (SymTab.lookup_mem known))
    · rw [valu, take_rounding fits]
  case locals =>
    intro k modul atK name inModul notExt keep save located
    obtain ⟨locals, crs, names⟩ := links.names keep
    have inNames : name.placed (moduls.take k) ∈ namesFrom [] moduls := mem_namesFrom atK inModul
    have inSaved : name.placed (moduls.take k) ∈ scan.tables.locals := by
      rw [links.collected.locals, savedLocals, mem_filter]
      refine ⟨inNames, ?_⟩
      simp only [Name.mustsavelocal, placed_type] at save ⊢
      simp [notExt, keep, save]
    have placedLocated : (name.placed (moduls.take k)).located = true := by
      rw [located_of_type (placed_type _ name)]
      exact located
    have inLocals : addbase plan.outsect (name.placed (moduls.take k)) ∈ plan.locals := by
      rw [links.locals]
      exact List.mem_map_of_mem inSaved
    have unchanged : doCrs plan (addbase plan.outsect (name.placed (moduls.take k))) =
        some (addbase plan.outsect (name.placed (moduls.take k))) := by
      rw [doCrs, if_neg]
      rw [addbase_type, placed_type]
      simp only [Name.located, Bool.and_eq_true, Bool.not_eq_true', decide_eq_false_iff_not] at located
      exact fun equal => located.1 (Or.inr (Or.inr equal))
    refine ⟨addbase plan.outsect (name.placed (moduls.take k)), ?_, ?_, ?_, ?_⟩
    · obtain ⟨i, here⟩ := List.mem_iff_getElem?.mp inLocals
      rw [names]
      refine mem_append_left _ (mem_of_getElem? (i := i) ?_)
      rw [(mapM_made crs).2 i _ here, unchanged]
    · rw [addbase_str, placed_str]
    · rw [addbase_type, placed_type]
    · rw [addbase_located placedLocated, links.outsect, placed_type, ← take_rounding fits]
      simp only [placed_valu located]
      ring
  case fields =>
    intro k modul atK relo inRelos kind modulus size plain
    obtain ⟨old, nami, target, field, read, found, written, agree⟩ :=
      links.relocated.fields k modul atK relo inRelos
    have inside := ((wellFormed modul (mem_of_getElem? atK)).inside relo inRelos).2.2
    obtain ⟨got, readBack, value⟩ := getvalu_putvalu size plain written
    have inFile : Agree (extent field relo.type) field
        (window out.file ((out.outsect (relo.sect.toNat - sMin)).foff.toNat +
          offset (moduls.take k) (relo.sect.toNat - sMin) + relo.addr.toNat)) := by
      intro i bound
      rw [extent_plain size plain field
        (window (modul.sect (relo.sect.toNat - sMin)).contents relo.addr.toNat)] at bound
      rw [agree i bound]
      have inFlen : relo.addr.toNat + i < modul.flen (relo.sect.toNat - sMin) :=
        inside (relo.sect.toNat - sMin, relo.addr.toNat + i)
          ⟨rfl, Nat.le_add_right _ _, Nat.add_lt_add_left bound _⟩
      have inStop := links.stop_inside atK inFlen
      have byte := links.file few inStop
      simp only [window]
      rw [← take_rounding fits]
      rw [show start (moduls.take k) (relo.sect.toNat - sMin) + relo.addr.toNat + i =
        start (moduls.take k) (relo.sect.toNat - sMin) + (relo.addr.toNat + i) by omega, ← byte]
      congr 1
      omega
    refine ⟨old, got, target, read, ?_, links.target wellFormed defined fits atK inRelos found, ?_⟩
    · rw [getvalu_eq inFile]
      exact readBack
    · rw [value, ofInt_toNat_mod _ (modulus_dvd plain)]
      simp only [pcOrigin, pcOffset, originsOf, links.outsect, take_rounding fits]
      split
      · ring_nf
      · rfl
  case counted => exact fun keep => (links.counted keep).mpr (namesFit keep)

end Output

end AckFormal.Led
