import AckFormal.Led.Fields

/-!
# The symbol table

Names as `out.h` has them, the hashed table of global names of `sym.c`, and what
`extract.c` does with an external name.  A name carries its string in place of the
offset or pointer in `on_u`; a name of type `S_CRS` has in `crs` the string that
its `on_valu` is the offset of.
-/

namespace AckFormal.Led

abbrev Str := List Byte

structure Name where
  str : Str
  type : BitVec 16
  desc : BitVec 16
  valu : BitVec 32
  crs : Str

/-! ## The type of a name -/

def sUnd : Nat := 0
def sAbs : Nat := 1
def sMin : Nat := 2
def sCrs : Nat := 127

def styp (type : BitVec 16) : Nat := (type &&& 0x7f#16).toNat

def isExt (type : BitVec 16) : Bool := type &&& 0x80#16 != 0#16
def isSct (type : BitVec 16) : Bool := type &&& 0x100#16 != 0#16
def isCom (type : BitVec 16) : Bool := type &&& 0x1000#16 != 0#16

namespace Name

def isUndefined (name : Name) : Bool := name.type &&& 0xff#16 == 0x80#16
def isAbsolute (name : Name) : Bool := name.type &&& 0xff#16 == 0x81#16
def isCommon (name : Name) : Bool := name.type &&& 0x1080#16 == 0x1080#16

def mustsavelocal (name : Name) : Bool := !isSct name.type

end Name

/-! ## The hashed table -/

/-- `hash`: a character is a signed number, the sum an `unsigned short`. -/
def hash (p : Str) : Nat :=
  (p.foldl (fun (h : BitVec 16) c => (h <<< 2) + c.signExtend 16) 0#16).toNat % 307

/-- The pieces `ALLOGLOB` and `ALLOSYMB` with the heads of the hash chains in
`hashtable`.  A chain is the list of the positions of its names in `ALLOGLOB`, the
last one entered first. -/
structure SymTab where
  names : List Name
  hashtable : Nat → List Nat
  nglobals : BitVec 16
  chained : ∀ (i : Nat) (name : Name), names[i]? = some name → i ∈ hashtable (hash name.str)
  present : ∀ (h i : Nat), i ∈ hashtable h → i < names.length
  counted : nglobals = BitVec.ofNat 16 names.length

namespace SymTab

def empty : SymTab where
  names := []
  hashtable := fun _ => []
  nglobals := 0
  chained := by simp
  present := by simp
  counted := rfl

def searchname (tab : SymTab) (string : Str) : Option Nat :=
  (tab.hashtable (hash string)).find? fun i => (tab.names[i]?).any (fun name => name.str == string)

def entername (tab : SymTab) (name : Name) : SymTab where
  names := tab.names ++ [name]
  hashtable := Function.update tab.hashtable (hash name.str)
    (tab.names.length :: tab.hashtable (hash name.str))
  nglobals := tab.nglobals + 1
  chained := by
    intro i entry here
    by_cases old : i < tab.names.length
    · rw [List.getElem?_append_left old] at here
      have member := tab.chained i entry here
      by_cases same : hash entry.str = hash name.str
      · rw [same, Function.update_self]
        rw [same] at member
        exact List.mem_cons_of_mem _ member
      · rw [Function.update_of_ne same]
        exact member
    · have atEnd : i = tab.names.length := by
        have bound := (List.getElem?_eq_some_iff.mp here).1
        simp only [List.length_append, List.length_singleton] at bound
        omega
      subst atEnd
      simp only [List.getElem?_concat_length, Option.some.injEq] at here
      subst here
      rw [Function.update_self]
      exact List.mem_cons_self
  present := by
    intro h i member
    rw [List.length_append, List.length_singleton]
    by_cases same : h = hash name.str
    · subst same
      rw [Function.update_self] at member
      rcases List.mem_cons.mp member with rfl | old
      · omega
      · have bound := tab.present _ i old
        omega
    · rw [Function.update_of_ne same] at member
      have bound := tab.present h i member
      omega
  counted := by
    rw [tab.counted, List.length_append, BitVec.ofNat_add]
    rfl

/-- The table with other types and values for its names. -/
def rewrite (tab : SymTab) (names : List Name)
    (same : names.map Name.str = tab.names.map Name.str) : SymTab where
  names := names
  hashtable := tab.hashtable
  nglobals := tab.nglobals
  chained := by
    intro i name here
    have strings : (tab.names.map Name.str)[i]? = some name.str := by
      rw [← same, List.getElem?_map, here]
      rfl
    rw [List.getElem?_map] at strings
    obtain ⟨old, atOld, sameStr⟩ := Option.map_eq_some_iff.mp strings
    rw [← sameStr]
    exact tab.chained i old atOld
  present := by
    intro h i member
    have lengths := congrArg List.length same
    simp only [List.length_map] at lengths
    rw [lengths]
    exact tab.present h i member
  counted := by
    have lengths := congrArg List.length same
    simp only [List.length_map] at lengths
    rw [tab.counted, lengths]

def lookup (tab : SymTab) (string : Str) : Option Name :=
  (tab.searchname string).bind fun i => tab.names[i]?

end SymTab

/-! ## External names -/

def transfer (src dst : Name) : Name :=
  { dst with valu := src.valu, type := src.type, desc := src.desc }

def redefine (new old : Name) : Name :=
  if !old.isCommon then old
  else if new.isCommon then
    if new.valu > old.valu then { old with valu := new.valu } else old
  else transfer new old

theorem redefine_str (new old : Name) : (redefine new old).str = old.str := by
  simp only [redefine]
  split
  · rfl
  · split
    · split <;> rfl
    · rfl

/-- What becomes of the old entry when the same name turns up in a module. -/
def meet (new old : Name) : Name :=
  if new.isUndefined then old
  else if old.isUndefined then transfer new old
  else redefine new old

theorem meet_str (new old : Name) : (meet new old).str = old.str := by
  simp only [meet]
  split
  · rfl
  · split
    · rfl
    · exact redefine_str new old

/-- A list changed at one place by a function that keeps the strings has the same strings. -/
theorem map_str_modify (names : List Name) (i : Nat) (change : Name → Name)
    (keeps : ∀ name, (change name).str = name.str) :
    (names.modify i change).map Name.str = names.map Name.str := by
  apply List.ext_getElem?
  intro j
  simp only [List.getElem?_map, List.getElem?_modify]
  cases names[j]? with
  | none => rfl
  | some name =>
    simp only [Option.map_eq_map, Option.map_some, Option.some.injEq]
    split
    · exact keeps name
    · rfl

def getexternal (tab : SymTab) (name : Name) : SymTab :=
  match tab.searchname name.str with
  | none => tab.entername name
  | some i =>
    tab.rewrite (tab.names.modify i (meet name)) (map_str_modify _ _ _ (meet_str name))

/-- Whether `getexternal` reports that the name is multiply defined. -/
def multiplyDefined (tab : SymTab) (name : Name) : Bool :=
  match tab.lookup name.str with
  | none => false
  | some old => !name.isUndefined && !old.isUndefined && !old.isCommon && !name.isCommon

def enterundef (tab : SymTab) (string : Str) : SymTab :=
  match tab.searchname string with
  | none => tab.entername ⟨string, 0x80#16, 0, 0, []⟩
  | some _ => tab

namespace SymTab

variable {tab : SymTab} {string : Str} {name : Name}

theorem searchname_some {i : Nat} (found : tab.searchname string = some i) :
    ∃ name, tab.names[i]? = some name ∧ name.str = string := by
  have holds := List.find?_some found
  simp only [Option.any_eq_true, beq_iff_eq] at holds
  exact holds

theorem searchname_none :
    tab.searchname string = none ↔ ∀ name ∈ tab.names, name.str ≠ string := by
  rw [searchname, List.find?_eq_none]
  constructor
  · intro absent name member same
    obtain ⟨i, here⟩ := List.mem_iff_getElem?.mp member
    have chained := tab.chained i name here
    rw [same] at chained
    have never := absent i chained
    simp [here, same] at never
  · intro absent i _ found
    simp only [Option.any_eq_true, beq_iff_eq] at found
    obtain ⟨name, here, same⟩ := found
    exact absent name (List.mem_of_getElem? here) same

theorem lookup_none : tab.lookup string = none ↔ ∀ name ∈ tab.names, name.str ≠ string := by
  rw [← searchname_none, lookup]
  cases found : tab.searchname string with
  | none => simp
  | some i =>
    obtain ⟨name, here, _⟩ := searchname_some found
    simp [here]

theorem lookup_str (found : tab.lookup string = some name) : name.str = string := by
  obtain ⟨i, searched, here⟩ := Option.bind_eq_some_iff.mp found
  obtain ⟨other, atOther, same⟩ := searchname_some searched
  rw [here] at atOther
  cases atOther
  exact same

theorem lookup_mem (found : tab.lookup string = some name) : name ∈ tab.names := by
  obtain ⟨i, _, here⟩ := Option.bind_eq_some_iff.mp found
  exact List.mem_of_getElem? here

section

variable {names : List Name} (same : names.map Name.str = tab.names.map Name.str)
include same

/-- Other types and values do not change where a name is found. -/
theorem searchname_rewrite (string : Str) :
    (tab.rewrite names same).searchname string = tab.searchname string := by
  simp only [searchname, rewrite]
  congr 1
  funext i
  have strings : (names[i]?).map Name.str = (tab.names[i]?).map Name.str := by
    rw [← List.getElem?_map, ← List.getElem?_map, same]
  have anyStr : ∀ entry : Option Name,
      entry.any (fun name => name.str == string) = (entry.map Name.str).any (· == string) := by
    intro entry
    cases entry <;> rfl
  rw [anyStr, anyStr, strings]

theorem lookup_rewrite (string : Str) :
    (tab.rewrite names same).lookup string = (tab.searchname string).bind fun i => names[i]? := by
  rw [lookup, searchname_rewrite]
  rfl

end

/-- A name that is entered is found under its string, and nothing else changes. -/
theorem lookup_entername (tab : SymTab) (name : Name) (string : Str) :
    (tab.entername name).lookup string =
      if string = name.str then some name else tab.lookup string := by
  by_cases same : string = name.str
  · subst same
    have first : (tab.entername name).searchname name.str = some tab.names.length := by
      simp [searchname, entername]
    rw [if_pos rfl, lookup, first]
    simp [entername]
  · have old : ∀ i, i < tab.names.length → (tab.entername name).names[i]? = tab.names[i]? := by
      intro i bound
      exact List.getElem?_append_left bound
    have searched : (tab.entername name).searchname string = tab.searchname string := by
      have inChain : ∀ h, ((tab.hashtable h).find? fun i =>
          ((tab.entername name).names[i]?).any (fun name => name.str == string)) =
          (tab.hashtable h).find? fun i =>
            (tab.names[i]?).any (fun name => name.str == string) := by
        intro h
        apply List.find?_congr
        intro i member
        rw [old i (tab.present h i member)]
      by_cases sameHash : hash string = hash name.str
      · simp only [searchname]
        rw [sameHash]
        have different : (name.str == string) = false := by
          simpa using fun equal : name.str = string => same equal.symm
        have chain : (tab.entername name).hashtable (hash name.str) =
            tab.names.length :: tab.hashtable (hash name.str) := Function.update_self ..
        have last : (tab.entername name).names[tab.names.length]? = some name := by
          simp [entername]
        rw [chain, List.find?_cons_of_neg, inChain]
        simp [last, different]
      · have chain : (tab.entername name).hashtable (hash string) =
            tab.hashtable (hash string) := Function.update_of_ne sameHash ..
        simp only [searchname]
        rw [chain, inChain]
    rw [if_neg same, lookup, searched, lookup]
    cases found : tab.searchname string with
    | none => rfl
    | some i =>
      obtain ⟨entry, here, _⟩ := searchname_some found
      exact old i (List.getElem?_eq_some_iff.mp here).1

end SymTab

/-- The entry for a string after a name with that string has turned up. -/
def settle (new : Name) : Option Name → Option Name
  | none => some new
  | some old => some (meet new old)

/-- `getexternal` changes what the table says about one string. -/
theorem lookup_getexternal (tab : SymTab) (name : Name) (string : Str) :
    (getexternal tab name).lookup string =
      if string = name.str then settle name (tab.lookup string) else tab.lookup string := by
  unfold getexternal
  cases found : tab.searchname name.str with
  | none =>
    rw [SymTab.lookup_entername]
    split
    · rename_i same
      subst same
      simp [SymTab.lookup, found, settle]
    · rfl
  | some i =>
    rw [SymTab.lookup_rewrite]
    obtain ⟨old, here, sameStr⟩ := SymTab.searchname_some found
    split
    · rename_i same
      subst same
      simp [SymTab.lookup, found, here, settle]
    · rename_i different
      rw [SymTab.lookup]
      cases other : tab.searchname string with
      | none => rfl
      | some j =>
        have apart : i ≠ j := by
          intro equal
          subst equal
          obtain ⟨entry, atEntry, entryStr⟩ := SymTab.searchname_some other
          rw [here] at atEntry
          cases atEntry
          exact different (entryStr.symm.trans sameStr)
        simp [apart]

end AckFormal.Led
