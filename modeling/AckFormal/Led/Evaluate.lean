import AckFormal.Led.Naming

/-!
# Between the passes

The file offsets and bases of the sections, the addresses of the commons and the
values of the names.
-/

namespace AckFormal.Led

/-! ## Sections -/

/-- The number of bytes in the file of the sections before section `s`. -/
def flenBefore (outsect : Nat → OutSect) (s : Nat) : Nat :=
  ((List.range s).map fun i => (outsect i).flen.toNat).sum

theorem flenBefore_succ (outsect : Nat → OutSect) (s : Nat) :
    flenBefore outsect (s + 1) = flenBefore outsect s + (outsect s).flen.toNat := by
  simp only [flenBefore, List.range_succ, List.map_append, List.map_cons, List.map_nil,
    List.sum_append, List.sum_cons, List.sum_nil, Nat.add_zero]

/-- What `complete_sections` has done when it has had `n` sections. -/
structure Completed (flags : Flags) (outsect : Nat → OutSect) (foff : BitVec 32) (n : Nat)
    (layout : Layout) : Prop where
  next : layout.foff = foff + BitVec.ofNat 32 (flenBefore outsect n)
  foff : ∀ s, s < n → (layout.outsect s).foff = foff + BitVec.ofNat 32 (flenBefore outsect s)
  flen : ∀ s, (layout.outsect s).flen = (outsect s).flen
  later : ∀ s, n ≤ s → layout.outsect s = outsect s
  relocatable : flags.rflag = true → ∀ s, (layout.outsect s).base = (outsect s).base

variable {flags : Flags} {tab : SymTab}

theorem completeSection_some {comm : Nat → Int} {layout layout' : Layout} {s : Nat}
    (ran : completeSection flags comm layout s = some layout') :
    layout'.foff = layout.foff + (layout.outsect s).flen ∧
      ∃ changed : OutSect, layout'.outsect = Function.update layout.outsect s changed ∧
        changed.foff = layout.foff ∧ changed.flen = (layout.outsect s).flen ∧
        (flags.rflag = true → changed.base = (layout.outsect s).base) := by
  simp only [completeSection] at ran
  split at ran
  · cases ran
    exact ⟨rfl, _, rfl, rfl, rfl, fun _ => rfl⟩
  · rename_i final
    split at ran
    · split at ran
      · cases ran
      · cases ran
        exact ⟨rfl, _, rfl, rfl, rfl, fun relocatable => absurd relocatable final⟩
    · cases ran
      exact ⟨rfl, _, rfl, rfl, rfl, fun relocatable => absurd relocatable final⟩

/-- The loop over the sections places each of them behind the ones before. -/
theorem completeLoop {comm : Nat → Int} {base foff : BitVec 32} {outsect : Nat → OutSect} (n : Nat)
    {layout : Layout} (ran : (List.range n).foldlM (completeSection flags comm) ⟨base, foff, outsect⟩ =
      some layout) : Completed flags outsect foff n layout := by
  induction n generalizing layout with
  | zero =>
    cases ran
    refine ⟨?_, ?_, fun _ => rfl, fun _ _ => rfl, fun _ _ => rfl⟩
    · exact (BitVec.add_zero foff).symm
    · intro s absurdBound
      omega
  | succ n ih =>
    rw [List.range_succ, List.foldlM_append] at ran
    obtain ⟨before, earlier, last⟩ := Option.bind_eq_some_iff.mp ran
    have completed := ih earlier
    have one : completeSection flags comm before n = some layout := by simpa using last
    obtain ⟨next, changed, update, newFoff, newFlen, newBase⟩ := completeSection_some one
    refine ⟨?_, ?_, ?_, ?_, ?_⟩
    · rw [next, completed.next, completed.flen, flenBefore_succ, BitVec.ofNat_add,
        BitVec.ofNat_toNat, BitVec.setWidth_eq, BitVec.add_assoc]
    · intro s bound
      by_cases same : s = n
      · subst same
        rw [update, Function.update_self, newFoff, completed.next]
      · rw [update, Function.update_of_ne same]
        exact completed.foff s (by omega)
    · intro s
      by_cases same : s = n
      · subst same
        rw [update, Function.update_self, newFlen]
        exact completed.flen s
      · rw [update, Function.update_of_ne same]
        exact completed.flen s
    · intro s bound
      rw [update, Function.update_of_ne (by omega)]
      exact completed.later s (by omega)
    · intro relocatable s
      by_cases same : s = n
      · subst same
        rw [update, Function.update_self, newBase relocatable]
        exact completed.relocatable relocatable s
      · rw [update, Function.update_of_ne same]
        exact completed.relocatable relocatable s

/-! ## Names -/

/-- The address that `norm_commons` gives: a name that is common gets another value
and loses the bit `S_COM`, another name stays as it is. -/
def Normed (old new : Name) : Prop :=
  ((!old.isAbsolute && old.isCommon) = false ∧ new = old) ∨
    ((!old.isAbsolute && old.isCommon) = true ∧
      ∃ valu, new = { old with valu := valu, type := old.type &&& ~~~0x1000#16 })

theorem normLoop_normed (outsect : Nat → OutSect) (comm : Nat → Int) (names : List Name) :
    List.Forall₂ Normed names (normLoop outsect comm names).1 := by
  induction names generalizing comm with
  | nil => exact List.Forall₂.nil
  | cons name rest ih =>
    simp only [normLoop]
    split
    · rename_i common
      exact List.Forall₂.cons (Or.inr ⟨common, _, rfl⟩) (ih _)
    · rename_i common
      exact List.Forall₂.cons (Or.inl ⟨by simpa using common, rfl⟩) (ih _)

theorem nglobals_toNat (few : tab.names.length < 65536) :
    tab.nglobals.toNat = tab.names.length := by
  rw [tab.counted, BitVec.toNat_ofNat]
  exact Nat.mod_eq_of_lt few

theorem rewriteCounted_names (change : List Name → List Name)
    (keeps : ∀ names, (change names).map Name.str = names.map Name.str)
    (few : tab.names.length < 65536) :
    (tab.rewriteCounted change keeps).names = change tab.names := by
  simp only [SymTab.rewriteCounted, SymTab.rewrite, nglobals_toNat few, List.take_length,
    List.drop_length, List.append_nil]

theorem rewriteCounted_searchname (tab : SymTab) (change : List Name → List Name)
    (keeps : ∀ names, (change names).map Name.str = names.map Name.str) (string : Str) :
    (tab.rewriteCounted change keeps).searchname string = tab.searchname string :=
  SymTab.searchname_rewrite _ string

/-- Names that were rewritten one by one are found where they were. -/
theorem lookup_rewriteCounted {change : List Name → List Name}
    (keeps : ∀ names, (change names).map Name.str = names.map Name.str) {R : Name → Name → Prop}
    (few : tab.names.length < 65536) (changed : List.Forall₂ R tab.names (change tab.names))
    {string : Str} {old : Name} (known : tab.lookup string = some old) :
    ∃ new, (tab.rewriteCounted change keeps).lookup string = some new ∧ R old new := by
  obtain ⟨i, found, here⟩ := Option.bind_eq_some_iff.mp known
  have bound := (List.getElem?_eq_some_iff.mp here).1
  have newBound : i < (change tab.names).length := by
    rw [← changed.length_eq]
    exact bound
  refine ⟨(change tab.names)[i], ?_, ?_⟩
  · rw [SymTab.lookup, rewriteCounted_searchname, found, rewriteCounted_names change keeps few]
    exact List.getElem?_eq_getElem newBound
  · have pair := List.Forall₂.get changed bound newBound
    have sameOld : tab.names.get ⟨i, bound⟩ = old := (List.getElem?_eq_some_iff.mp here).2
    rw [sameOld] at pair
    exact pair

theorem map_forall₂ (f : Name → Name) (names : List Name) :
    List.Forall₂ (fun old new => new = f old) names (names.map f) := by
  rw [List.forall₂_map_right_iff]
  exact List.forall₂_same.mpr (fun _ _ => rfl)

/-- The table that `norm_commons` and `change_names` leave, without `-r` and `-n`. -/
def finalTable (outsect final : Nat → OutSect) (tab : SymTab) : SymTab :=
  (normCommons false outsect tab).1.rewriteCounted (List.map (addbase final))
    (map_addbase_str final)

theorem normCommons_names (outsect : Nat → OutSect) (few : tab.names.length < 65536) :
    (normCommons false outsect tab).1.names = (normLoop outsect (fun _ => 0) tab.names).1 :=
  rewriteCounted_names _ _ few

theorem normCommons_few (outsect : Nat → OutSect) (few : tab.names.length < 65536) :
    (normCommons false outsect tab).1.names.length < 65536 := by
  rw [normCommons_names outsect few, ← (normLoop_normed outsect (fun _ => 0) tab.names).length_eq]
  exact few

theorem finalTable_lookup (outsect final : Nat → OutSect) (few : tab.names.length < 65536)
    {string : Str} {old : Name} (known : tab.lookup string = some old) :
    ∃ middle, Normed old middle ∧
      (finalTable outsect final tab).lookup string = some (addbase final middle) := by
  obtain ⟨middle, found, normed⟩ := lookup_rewriteCounted (normLoop_str outsect (fun _ => 0)) few
    (normLoop_normed outsect (fun _ => 0) tab.names) known
  obtain ⟨new, foundNew, same⟩ := lookup_rewriteCounted (map_addbase_str final)
    (normCommons_few outsect few) (map_forall₂ (addbase final) _) found
  refine ⟨middle, normed, ?_⟩
  rw [← same]
  exact foundNew

/-! ## The bits of a type -/

theorem isCom_clear_common (type : BitVec 16) : isCom (type &&& ~~~0x1000#16) = false := by
  simp only [isCom, BitVec.and_assoc]
  have none : (~~~0x1000#16 &&& 0x1000#16) = 0#16 := by decide
  rw [none, BitVec.and_zero]
  rfl

theorem isUndefined_clear_common (name : Name) (valu : BitVec 32) :
    Name.isUndefined { name with valu := valu, type := name.type &&& ~~~0x1000#16 } =
      name.isUndefined := by
  simp only [Name.isUndefined, BitVec.and_assoc]
  rfl

theorem and_twoPow_eq {type : BitVec 16} {i : Nat} (set : type &&& BitVec.twoPow 16 i ≠ 0#16) :
    type &&& BitVec.twoPow 16 i = BitVec.twoPow 16 i := by
  rw [BitVec.and_twoPow] at set ⊢
  split
  · rfl
  · rename_i clear
    rw [if_neg clear] at set
    exact absurd rfl set

/-- A name is common if it is external and `S_COM` is set in its type. -/
theorem isCommon_eq (name : Name) : name.isCommon = (isCom name.type && isExt name.type) := by
  have comMask : 0x1000#16 = BitVec.twoPow 16 12 := by decide
  have extMask : 0x80#16 = BitVec.twoPow 16 7 := by decide
  have mask : 0x1080#16 = 0x1000#16 ||| 0x80#16 := by decide
  simp only [Name.isCommon, isCom, isExt]
  rw [Bool.eq_iff_iff]
  simp only [beq_iff_eq, Bool.and_eq_true, bne_iff_ne]
  constructor
  · intro both
    constructor
    · intro none
      have bits := congrArg (· &&& 0x1000#16) both
      simp only [BitVec.and_assoc] at bits
      have masked : (0x1080#16 &&& 0x1000#16) = 0x1000#16 := by decide
      rw [masked, none] at bits
      exact absurd bits (by decide)
    · intro none
      have bits := congrArg (· &&& 0x80#16) both
      simp only [BitVec.and_assoc] at bits
      have masked : (0x1080#16 &&& 0x80#16) = 0x80#16 := by decide
      rw [masked, none] at bits
      exact absurd bits (by decide)
  · rintro ⟨com, ext⟩
    rw [mask, BitVec.and_or_distrib_left, comMask, extMask, and_twoPow_eq com, and_twoPow_eq ext]

theorem isUndefined_of_styp {name : Name} (ext : isExt name.type = true)
    (und : styp name.type = sUnd) : name.isUndefined = true := by
  have extMask : 0x80#16 = BitVec.twoPow 16 7 := by decide
  have mask : 0xff#16 = 0x80#16 ||| 0x7f#16 := by decide
  simp only [isExt, bne_iff_ne] at ext
  have low : name.type &&& 0x7f#16 = 0#16 := BitVec.eq_of_toNat_eq und
  simp only [Name.isUndefined, beq_iff_eq]
  rw [mask, BitVec.and_or_distrib_left, low, extMask, and_twoPow_eq ext, BitVec.or_zero]

/-- `evaluate` without `-r` and `-n` if no name is undefined. -/
theorem evaluate_final {scan : Scan} {plan : Plan} (rflag : flags.rflag = false)
    (nflag : flags.nflag = false) (defined : someUndefined scan.tables.globals = false)
    (ran : evaluate flags scan = some plan) :
    plan.flags = flags ∧ plan.nsect = scan.nsect ∧
      plan.globals = finalTable scan.outsect plan.outsect scan.tables.globals ∧
      plan.locals = changeLoop plan.outsect scan.tables.nlocals.toNat scan.tables.locals ∧
      plan.nlocals = scan.tables.nlocals ∧
      ∃ comm, completeSections flags comm scan.nsect scan.outsect = some plan.outsect := by
  have sameFlags : undefinedFlags flags scan.tables.globals = flags := by
    simp [undefinedFlags, defined]
  simp only [evaluate, sameFlags] at ran
  obtain ⟨outsect, completed, rest⟩ := Option.bind_eq_some_iff.mp ran
  simp only [rflag, nflag] at rest completed
  cases rest
  exact ⟨rfl, rfl, rfl, rfl, rfl, _, completed⟩

end AckFormal.Led
