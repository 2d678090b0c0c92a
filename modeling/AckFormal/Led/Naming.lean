import AckFormal.Led.Placement

/-!
# The names after the first pass

What the table says about a string is what the external names with that string add
up to, in the order of the modules.  A name that is defined in a section counts from
the start of its module in that section.
-/

namespace AckFormal.Led

/-! ## One string -/

namespace Name

def defines (name : Name) : Bool :=
  isExt name.type && !name.isUndefined && !name.isCommon

def located (name : Name) : Bool :=
  !(styp name.type = sUnd ∨ styp name.type = sAbs ∨ styp name.type = sCrs) && !isCom name.type

def SameData (a b : Name) : Prop :=
  a.type = b.type ∧ a.valu = b.valu ∧ a.desc = b.desc

end Name

def resolve (initial : Option Name) (names : List Name) : Option Name :=
  names.foldl (fun entry name => settle name entry) initial

section Resolve

variable {initial : Option Name} {names : List Name} {d entry old : Name}

theorem isUndefined_of_type {a b : Name} (same : a.type = b.type) :
    a.isUndefined = b.isUndefined := by
  simp only [Name.isUndefined, same]

theorem isCommon_of_type {a b : Name} (same : a.type = b.type) : a.isCommon = b.isCommon := by
  simp only [Name.isCommon, same]

theorem meet_defined (n : Name) (undefined : old.isUndefined = false)
    (common : old.isCommon = false) : meet n old = old := by
  simp only [meet, redefine, undefined, common]
  split
  · rfl
  · rfl

/-- A definition takes the place of an undefined or common entry. -/
theorem meet_definition (defined : d.defines = true)
    (weak : old.isUndefined = true ∨ old.isCommon = true) : (meet d old).SameData d := by
  simp only [Name.defines, Bool.and_eq_true, Bool.not_eq_true'] at defined
  obtain ⟨⟨_, undefined⟩, common⟩ := defined
  simp only [meet, undefined]
  by_cases oldUndefined : old.isUndefined = true
  · rw [if_neg (by simp), if_pos oldUndefined]
    exact ⟨rfl, rfl, rfl⟩
  · rw [if_neg (by simp), if_neg oldUndefined]
    have oldCommon := weak.resolve_left oldUndefined
    simp only [redefine, oldCommon, common]
    exact ⟨rfl, rfl, rfl⟩

theorem meet_weak {n : Name} (ext : isExt n.type = true) (defined : n.defines = false)
    (weak : old.isUndefined = true ∨ old.isCommon = true) :
    (meet n old).isUndefined = true ∨ (meet n old).isCommon = true := by
  have weakNew : n.isUndefined = true ∨ n.isCommon = true := by
    simp only [Name.defines, ext, Bool.true_and, Bool.and_eq_false_iff, Bool.not_eq_false'] at defined
    exact defined
  simp only [meet]
  split
  · exact weak
  · split
    · exact weakNew
    · rename_i newDefined oldDefined
      have oldCommon := weak.resolve_left oldDefined
      have newCommon := weakNew.resolve_left newDefined
      simp only [redefine, newCommon]
      split
      · exact Or.inr oldCommon
      · simp only [if_true]
        split
        · exact Or.inr oldCommon
        · exact Or.inr oldCommon

theorem resolve_defined (names : List Name) (undefined : entry.isUndefined = false)
    (common : entry.isCommon = false) : resolve (some entry) names = some entry := by
  induction names with
  | nil => rfl
  | cons name rest ih =>
    simp only [resolve, List.foldl_cons, settle, meet_defined name undefined common]
    exact ih

/-- Names that define nothing leave an entry that is undefined or common. -/
theorem resolve_weak (ext : ∀ n ∈ names, isExt n.type = true)
    (weakNames : ∀ n ∈ names, n.defines = false)
    (weak : ∀ e, initial = some e → e.isUndefined = true ∨ e.isCommon = true) :
    ∀ e, resolve initial names = some e → e.isUndefined = true ∨ e.isCommon = true := by
  induction names generalizing initial with
  | nil => exact weak
  | cons name rest ih =>
    apply ih (fun n member => ext n (List.mem_cons_of_mem _ member))
      (fun n member => weakNames n (List.mem_cons_of_mem _ member))
    intro e settled
    have nameExt := ext name List.mem_cons_self
    have nameWeak := weakNames name List.mem_cons_self
    cases initial with
    | none =>
      cases settled
      simp only [Name.defines, nameExt, Bool.true_and, Bool.and_eq_false_iff,
        Bool.not_eq_false'] at nameWeak
      exact nameWeak
    | some old =>
      cases settled
      exact meet_weak nameExt nameWeak (weak old rfl)

/-- The only definition of a string is what the table has in the end. -/
theorem resolve_definition {before after : List Name} (defined : d.defines = true)
    (ext : ∀ n ∈ before, isExt n.type = true) (weakBefore : ∀ n ∈ before, n.defines = false)
    (weak : ∀ e, initial = some e → e.isUndefined = true ∨ e.isCommon = true) :
    ∃ e, resolve initial (before ++ d :: after) = some e ∧ e.SameData d := by
  have settled : ∃ e, settle d (resolve initial before) = some e ∧ e.SameData d := by
    cases soFar : resolve initial before with
    | none => exact ⟨d, rfl, rfl, rfl, rfl⟩
    | some old =>
      have weakOld := resolve_weak ext weakBefore weak old soFar
      exact ⟨meet d old, rfl, meet_definition defined weakOld⟩
  obtain ⟨e, settledEntry, same⟩ := settled
  refine ⟨e, ?_, same⟩
  simp only [Name.defines, Bool.and_eq_true, Bool.not_eq_true'] at defined
  have final := resolve_defined after
    ((isUndefined_of_type same.1).trans defined.1.2) ((isCommon_of_type same.1).trans defined.2)
  simp only [resolve, List.foldl_append, List.foldl_cons] at settledEntry final ⊢
  rw [settledEntry, final]

theorem meet_type (n old : Name) : (meet n old).type = n.type ∨ (meet n old).type = old.type := by
  simp only [meet, redefine]
  split
  · exact Or.inr rfl
  · split
    · exact Or.inl rfl
    · split
      · exact Or.inr rfl
      · split
        · split <;> exact Or.inr rfl
        · exact Or.inl rfl

theorem resolve_type (property : BitVec 16 → Prop) (all : ∀ n ∈ names, property n.type)
    (first : ∀ e, initial = some e → property e.type) :
    ∀ e, resolve initial names = some e → property e.type := by
  induction names generalizing initial with
  | nil => exact first
  | cons name rest ih =>
    apply ih (fun n member => all n (List.mem_cons_of_mem _ member))
    intro e settled
    have here := all name List.mem_cons_self
    cases initial with
    | none =>
      cases settled
      exact here
    | some old =>
      cases settled
      rcases meet_type name old with same | same
      · rw [same]
        exact here
      · rw [same]
        exact first old rfl

/-- A name that is defined or common somewhere is not undefined in the end. -/
theorem resolve_not_undefined {n : Name} (member : n ∈ names) (some_ : n.isUndefined = false) :
    ∀ e, resolve initial names = some e → e.isUndefined = false := by
  have kept : ∀ (rest : List Name) (old : Name), old.isUndefined = false →
      ∀ e, resolve (some old) rest = some e → e.isUndefined = false := by
    intro rest
    induction rest with
    | nil =>
      intro old known e same
      cases same
      exact known
    | cons name rest ih =>
      intro old known
      apply ih (meet name old)
      simp only [meet, redefine, known]
      split
      · exact known
      · rename_i nameKnown
        have nameKnown : name.isUndefined = false := by simpa using nameKnown
        simp only [Bool.false_eq_true, if_false]
        split
        · exact known
        · split
          · split
            · exact known
            · exact known
          · exact nameKnown
  obtain ⟨before, after, rfl⟩ := List.append_of_mem member
  intro e final
  have atName : ∃ next, settle n (resolve initial before) = some next ∧
      next.isUndefined = false := by
    cases resolve initial before with
    | none => exact ⟨n, rfl, some_⟩
    | some old =>
      refine ⟨meet n old, rfl, ?_⟩
      simp only [meet, some_]
      by_cases oldUndefined : old.isUndefined = true
      · rw [if_neg (by simp), if_pos oldUndefined]
        exact some_
      · have oldKnown : old.isUndefined = false := by simpa using oldUndefined
        rw [if_neg (by simp), if_neg oldUndefined]
        simp only [redefine]
        split
        · exact oldKnown
        · split
          · split
            · exact oldKnown
            · exact oldKnown
          · exact some_
  obtain ⟨next, settled, known⟩ := atName
  simp only [resolve, List.foldl_append, List.foldl_cons] at settled final
  rw [settled] at final
  exact kept after next known e final

end Resolve

/-! ## All names -/

/-- A name of a module that comes after `before`, counted from the start of its section. -/
def Name.placed (before : List Module) (name : Name) : Name :=
  if name.located then
    { name with valu := name.valu + BitVec.ofNat 32 (start before (styp name.type - sMin)) }
  else name

def namesFrom : List Module → List Module → List Name
  | _, [] => []
  | before, modul :: rest =>
    modul.names.map (Name.placed before) ++ namesFrom (before ++ [modul]) rest

theorem namesFrom_append (before moduls : List Module) (modul : Module) :
    namesFrom before (moduls ++ [modul]) =
      namesFrom before moduls ++ modul.names.map (Name.placed (before ++ moduls)) := by
  induction moduls generalizing before with
  | nil => simp [namesFrom]
  | cons first rest ih => simp [namesFrom, ih]

variable {moduls : List Module} {name : Name} {scan : Scan} {undefs : List Str}

theorem mem_namesFrom {before : List Module} {k : Nat} {modul : Module}
    (atK : moduls[k]? = some modul) (member : name ∈ modul.names) :
    name.placed (before ++ moduls.take k) ∈ namesFrom before moduls := by
  induction moduls generalizing before k with
  | nil => cases atK
  | cons first rest ih =>
    cases k with
    | zero =>
      cases atK
      rw [namesFrom, List.take_zero, List.append_nil]
      exact List.mem_append_left _ (List.mem_map_of_mem member)
    | succ k =>
      have later : name.placed (before ++ [first] ++ rest.take k) ∈
          namesFrom (before ++ [first]) rest := ih atK
      rw [List.append_assoc] at later
      exact List.mem_append_right _ later

theorem namesFrom_mem {before : List Module} (member : name ∈ namesFrom before moduls) :
    ∃ (k : Nat) (modul : Module) (origin : Name), moduls[k]? = some modul ∧
      origin ∈ modul.names ∧ name = origin.placed (before ++ moduls.take k) := by
  induction moduls generalizing before with
  | nil => cases member
  | cons first rest ih =>
    rcases List.mem_append.mp member with here | later
    · obtain ⟨origin, inFirst, rfl⟩ := List.mem_map.mp here
      exact ⟨0, first, origin, rfl, inFirst, by simp⟩
    · obtain ⟨k, modul, origin, atK, inModul, same⟩ := ih later
      exact ⟨k + 1, modul, origin, atK, inModul, by simp [same]⟩

theorem placed_type (before : List Module) (name : Name) : (name.placed before).type = name.type := by
  simp only [Name.placed]
  split <;> rfl

theorem placed_str (before : List Module) (name : Name) : (name.placed before).str = name.str := by
  simp only [Name.placed]
  split <;> rfl

theorem placed_defines (before : List Module) (name : Name) :
    (name.placed before).defines = name.defines := by
  simp only [Name.defines, Name.isUndefined, Name.isCommon, placed_type]

theorem namerelocate_some {changed : Name} (placed : Placed moduls scan)
    (ran : namerelocate scan.relorig name = some changed) : changed = name.placed moduls := by
  have origin : ∀ s, BitVec.ofInt 32 (scan.relorig s) = BitVec.ofNat 32 (start moduls s) := by
    intro s
    rw [placed.origin, BitVec.ofInt_natCast, BitVec.ofNat_toNat, BitVec.setWidth_eq, placed.size]
  simp only [namerelocate] at ran
  simp only [Name.placed, Name.located]
  split at ran
  · rename_i fixed
    cases ran
    simp [fixed]
  · rename_i fixed
    split at ran
    · rename_i common
      split at ran
      · cases ran
      · cases ran
        simp [common]
    · rename_i common
      cases ran
      simp [fixed, common, origin]

def undefEntry (undefs : List Str) (string : Str) : Option Name :=
  if string ∈ undefs then some ⟨string, 0x80#16, 0, 0, []⟩ else none

def externals (names : List Name) (string : Str) : List Name :=
  names.filter (fun name => isExt name.type && name.str == string)

def savedLocals (sflag : Bool) (names : List Name) : List Name :=
  names.filter (fun name => !isExt name.type && !sflag && name.mustsavelocal)

structure Collected (sflag : Bool) (undefs : List Str) (seen : List Name) (tables : Tables) :
    Prop where
  lookup : ∀ string, tables.globals.lookup string =
    resolve (undefEntry undefs string) (externals seen string)
  distinct : (tables.globals.names.map Name.str).Nodup
  locals : tables.locals = savedLocals sflag seen
  counted : tables.nlocals = BitVec.ofNat 16 tables.locals.length

theorem externals_append (seen : List Name) (name : Name) (string : Str) :
    externals (seen ++ [name]) string =
      externals seen string ++
        if isExt name.type = true ∧ name.str = string then [name] else [] := by
  simp only [externals, List.filter_append, List.filter_cons, List.filter_nil]
  by_cases here : isExt name.type = true ∧ name.str = string
  · simp [here]
  · rw [if_neg here, if_neg]
    simpa using here

theorem savedLocals_append (sflag : Bool) (seen : List Name) (name : Name) :
    savedLocals sflag (seen ++ [name]) = savedLocals sflag seen ++
      if !isExt name.type && !sflag && name.mustsavelocal then [name] else [] := by
  simp only [savedLocals, List.filter_append, List.filter_cons, List.filter_nil]

theorem getexternal_distinct {tab : SymTab} (name : Name)
    (distinct : (tab.names.map Name.str).Nodup) :
    ((getexternal tab name).names.map Name.str).Nodup := by
  unfold getexternal
  cases found : tab.searchname name.str with
  | none =>
    have absent := SymTab.searchname_none.mp found
    simp only [SymTab.entername, List.map_append, List.map_cons, List.map_nil]
    rw [List.nodup_append]
    refine ⟨distinct, List.nodup_singleton _, ?_⟩
    intro a old b new equal
    simp only [List.mem_singleton] at new
    obtain ⟨entry, member, rfl⟩ := List.mem_map.mp old
    exact absent entry member (equal.trans new)
  | some i =>
    simp only [SymTab.rewrite, map_str_modify _ _ _ (meet_str name)]
    exact distinct

/-- One name keeps the tables in step with the names seen. -/
theorem Collected.getName {sflag : Bool} {seen : List Name} {tables tables' : Tables}
    (collected : Collected sflag undefs seen tables) (placed : Placed moduls scan)
    (ran : getName sflag scan.relorig tables name = some tables') :
    Collected sflag undefs (seen ++ [name.placed moduls]) tables' := by
  obtain ⟨changed, relocated, rest⟩ := Option.bind_eq_some_iff.mp ran
  rw [namerelocate_some placed relocated] at rest
  generalize name.placed moduls = name at rest
  split at rest
  · rename_i ext
    cases rest
    refine ⟨?_, getexternal_distinct name collected.distinct, ?_, collected.counted⟩
    · intro string
      rw [lookup_getexternal, externals_append, collected.lookup]
      by_cases same : string = name.str
      · rw [if_pos same, if_pos ⟨ext, same.symm⟩]
        simp only [resolve, List.foldl_append, List.foldl_cons, List.foldl_nil]
      · rw [if_neg same, if_neg (fun both => same both.2.symm), List.append_nil]
    · rw [savedLocals_append, collected.locals]
      simp [ext]
  · rename_i notExt
    have same : ∀ string, externals (seen ++ [name]) string = externals seen string := by
      intro string
      rw [externals_append, if_neg (fun both => notExt both.1), List.append_nil]
    split at rest
    · rename_i save
      cases rest
      refine ⟨?_, collected.distinct, ?_, ?_⟩
      · intro string
        rw [same]
        exact collected.lookup string
      · rw [savedLocals_append, collected.locals]
        simp [notExt, save]
      · simp only [List.length_append, BitVec.ofNat_add, collected.counted]
        rfl
    · rename_i save
      cases rest
      refine ⟨?_, collected.distinct, ?_, collected.counted⟩
      · intro string
        rw [same]
        exact collected.lookup string
      · rw [savedLocals_append, collected.locals]
        simp [notExt, save]

theorem Collected.getNames {sflag : Bool} {seen names : List Name} {tables tables' : Tables}
    (collected : Collected sflag undefs seen tables) (placed : Placed moduls scan)
    (ran : names.foldlM (Led.getName sflag scan.relorig) tables = some tables') :
    Collected sflag undefs (seen ++ names.map (Name.placed moduls)) tables' := by
  apply Lib.foldlM_invariant
    (fun done tables => Collected sflag undefs (seen ++ done.map (Name.placed moduls)) tables)
    (by simpa using collected) _ ran
  intro done name before after _ now one
  have next := now.getName placed one
  simpa using next

theorem enterundef_lookup (tab : SymTab) (undef string : Str) :
    (enterundef tab undef).lookup string =
      if string = undef ∧ tab.lookup string = none then some ⟨undef, 0x80#16, 0, 0, []⟩
      else tab.lookup string := by
  unfold enterundef
  cases found : tab.searchname undef with
  | none =>
    rw [SymTab.lookup_entername]
    by_cases same : string = undef
    · subst same
      simp [SymTab.lookup, found]
    · simp [same]
  | some i =>
    obtain ⟨name, here, _⟩ := SymTab.searchname_some found
    rw [if_neg]
    rintro ⟨rfl, none⟩
    simp [SymTab.lookup, found, here] at none

theorem enterundef_distinct {tab : SymTab} (undef : Str)
    (distinct : (tab.names.map Name.str).Nodup) :
    ((enterundef tab undef).names.map Name.str).Nodup := by
  unfold enterundef
  cases found : tab.searchname undef with
  | none =>
    have entered := getexternal_distinct ⟨undef, 0x80#16, 0, 0, []⟩ distinct
    simpa only [getexternal, found] using entered
  | some i => exact distinct

theorem initial_collected (sflag : Bool) (undefs : List Str) :
    Collected sflag undefs [] (Scan.initial undefs).tables := by
  have general : ∀ (rest : List Str) (tab : SymTab) (done : List Str),
      (tab.names.map Name.str).Nodup → (∀ string, tab.lookup string = undefEntry done string) →
      ((rest.foldl enterundef tab).names.map Name.str).Nodup ∧
        ∀ string, (rest.foldl enterundef tab).lookup string = undefEntry (done ++ rest) string := by
    intro rest
    induction rest with
    | nil =>
      intro tab done distinct known
      simpa using ⟨distinct, known⟩
    | cons undef rest ih =>
      intro tab done distinct known
      have next := ih (enterundef tab undef) (done ++ [undef]) (enterundef_distinct undef distinct)
        (by
          intro string
          rw [enterundef_lookup, known]
          by_cases old : string ∈ done
          · simp [undefEntry, old]
          · by_cases same : string = undef
            · simp [undefEntry, same]
            · simp [undefEntry, same])
      simpa using next
  obtain ⟨distinct, known⟩ := general undefs SymTab.empty [] List.nodup_nil
    (fun string => by simp [SymTab.lookup, SymTab.empty, undefEntry])
  exact ⟨fun string => by simpa [externals] using! known string, distinct, rfl, rfl⟩

/-- After pass 1 the tables hold the names of all modules. -/
theorem firstPass_collected {flags : Flags} (ran : firstPass flags undefs moduls = some scan) :
    Collected flags.sflag undefs (namesFrom [] moduls) scan.tables := by
  have both : Placed moduls scan ∧
      Collected flags.sflag undefs (namesFrom [] moduls) scan.tables := by
    apply Lib.foldlM_invariant
      (fun done scan => Placed done scan ∧
        Collected flags.sflag undefs (namesFrom [] done) scan.tables)
      ⟨Placed.initial undefs, initial_collected flags.sflag undefs⟩ _ ran
    rintro done modul before after _ ⟨placed, collected⟩ read
    obtain ⟨tables, gathered, _, sameTables, _⟩ := extract_some read
    refine ⟨placed.extract read, ?_⟩
    rw [namesFrom_append, List.nil_append, sameTables]
    exact collected.getNames placed gathered
  exact both.2

end AckFormal.Led
