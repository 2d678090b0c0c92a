import AckFormal.Led.OutOfCore

/-!
# Names as offsets

The flag `-n` leaves the values of names as offsets in their sections.  The two runs
with and without it are compared: `addrelo` takes the value of a global name from the
same table that is written as the name list.
-/

namespace AckFormal.Led

def Flags.withN (flags : Flags) : Flags := { flags with nflag := true }

def typeBase (outsect : Nat → OutSect) (type : BitVec 16) : BitVec 32 :=
  if styp type = sUnd ∨ styp type = sAbs ∨ styp type = sCrs then 0
  else if isCom type then 0
  else (outsect (styp type - sMin)).base

def Name.offsetIn (outsect : Nat → OutSect) (name : Name) : Name :=
  { name with valu := name.valu - typeBase outsect name.type }

/-- The output `out'` of the run with `-n` differs from `out` in the values of names
only, and these are offsets. -/
structure NamesOnly (out out' : Output) : Prop where
  header : out'.nsect = out.nsect ∧ out'.nrelo = out.nrelo ∧ out'.nname = out.nname ∧
    out'.nemit = out.nemit
  outsect : out'.outsect = out.outsect
  contents : ∀ s, (out'.emits s).full = (out.emits s).full ∧
    Agree (out.emits s).full (out'.emits s).bytes (out.emits s).bytes
  relos : out'.relos = out.relos
  names : out'.names = out.names.map (Name.offsetIn out.outsect)

/-- Adding `base` does not change what a field of this type holds. -/
def Unseen (type : BitVec 16) (base : BitVec 32) : Prop :=
  match (relsz type).bind Relsz.modulus with
  | some modulus => base.toNat % modulus = 0
  | none => base = 0

/-- The base of the section of the global name that a relocation refers to. -/
def referredBase (plan : Plan) (names : List Name) (relo : Relo) : BitVec 32 :=
  match names[relo.nami.toNat]? with
  | none => 0
  | some name =>
    if isSct name.type then 0
    else ((plan.globals.lookup name.str).map fun entry =>
      typeBase plan.outsect entry.type).getD 0

/-- Nothing that is written depends on `change_names`: no section has a base or, with
`-s`, no relocation refers to a global name in a section with a base. -/
def Baseless (moduls : List Module) (plan : Plan) : Prop :=
  if plan.flags.sflag then
    ∀ modul ∈ moduls, ∀ relo ∈ modul.relos,
      Unseen relo.type (referredBase plan modul.names relo)
  else ∀ s, (plan.outsect s).base = 0

/-! ## The two plans -/

theorem addbase_eq (outsect : Nat → OutSect) (name : Name) :
    addbase outsect name = { name with valu := name.valu + typeBase outsect name.type } := by
  simp only [addbase, typeBase]
  split
  · simp
  · split
    · simp
    · rfl

variable {outsect : Nat → OutSect}

section

variable (zero : ∀ s, (outsect s).base = 0)
include zero

theorem typeBase_zero (type : BitVec 16) :
    typeBase outsect type = 0 := by
  simp only [typeBase, zero, ite_self]

theorem addbase_zero : addbase outsect = id := by
  funext name
  rw [addbase_eq, typeBase_zero zero]
  simp

theorem changeLoop_zero (cnt : Nat) (names : List Name) :
    changeLoop outsect cnt names = names := by
  rw [changeLoop, addbase_zero zero, List.map_id, List.take_append_drop]

end

/-- The plan without `-n` and the plan with it. -/
structure Shifted (plan plan' : Plan) : Prop where
  flags : plan'.flags = plan.flags.withN
  nsect : plan'.nsect = plan.nsect
  outsect : plan'.outsect = plan.outsect
  nlocals : plan'.nlocals = plan.nlocals
  nglobals : plan'.globals.nglobals = plan.globals.nglobals
  searchname : ∀ string, plan'.globals.searchname string = plan.globals.searchname string
  names : plan.globals.names =
    changeLoop plan.outsect plan'.globals.nglobals.toNat plan'.globals.names
  locals : plan.locals = changeLoop plan.outsect plan'.nlocals.toNat plan'.locals

section Plans

variable {flags : Flags} {undefs : List Str} {moduls : List Module} {scan : Scan}
  {plan plan' : Plan}

theorem completeSections_base {comm : Nat → Int} {nsect : Nat} {outsect final : Nat → OutSect}
    (ran : completeSections flags comm nsect outsect = some final) :
    (∀ s, nsect ≤ s → (final s).base = (outsect s).base) ∧
      (flags.rflag = true → ∀ s, (final s).base = (outsect s).base) := by
  obtain ⟨layout, looped, same⟩ := Option.bind_eq_some_iff.mp ran
  cases same
  have completed := completeLoop nsect looped
  constructor
  · intro s later
    rw [completed.later s later]
  · exact completed.relocatable

theorem undefinedFlags_withN (flags : Flags) (tab : SymTab) :
    undefinedFlags flags.withN tab = (undefinedFlags flags tab).withN := by
  by_cases undefined : (someUndefined tab && !flags.rflag) = true
  · simp only [undefinedFlags, Flags.withN, undefined, if_true]
  · simp only [undefinedFlags, Flags.withN, undefined, Bool.false_eq_true, if_false]

/-- With `-n` the plan is the same, but for the values of the names. -/
theorem evaluate_withN (base : ∀ s, (scan.outsect s).base = 0) (nflag : flags.nflag = false)
    (ran : evaluate flags scan = some plan) :
    ∃ plan', evaluate flags.withN scan = some plan' ∧ Shifted plan plan' := by
  have sameFlags := undefinedFlags_withN flags scan.tables.globals
  have kept : (undefinedFlags flags scan.tables.globals).nflag = false := by
    simp only [undefinedFlags]
    split
    · exact nflag
    · exact nflag
  simp only [evaluate] at ran ⊢
  obtain ⟨outsect, completed, rest⟩ := Option.bind_eq_some_iff.mp ran
  have completed' : completeSections (undefinedFlags flags scan.tables.globals).withN
      (normCommons (undefinedFlags flags scan.tables.globals).rflag scan.outsect
        scan.tables.globals).2 scan.nsect scan.outsect = some outsect := completed
  rw [sameFlags]
  change ∃ plan', (completeSections (undefinedFlags flags scan.tables.globals).withN
      (normCommons (undefinedFlags flags scan.tables.globals).rflag scan.outsect
        scan.tables.globals).2 scan.nsect scan.outsect).bind _ = some plan' ∧ _
  rw [completed']
  simp only [Flags.withN, Bool.or_true]
  refine ⟨_, rfl, ?_⟩
  rw [kept, Bool.or_false] at rest
  by_cases relocatable : (undefinedFlags flags scan.tables.globals).rflag = true
  · -- with `-r` the sections have no base
    have zero : ∀ s, (outsect s).base = 0 := by
      intro s
      rw [(completeSections_base completed).2 relocatable s]
      exact base s
    rw [if_pos relocatable] at rest
    cases rest
    exact ⟨rfl, rfl, rfl, rfl, rfl, fun _ => rfl, (changeLoop_zero zero _ _).symm,
      (changeLoop_zero zero _ _).symm⟩
  · rw [if_neg relocatable] at rest
    cases rest
    exact ⟨rfl, rfl, rfl, rfl, rfl,
      fun string => (rewriteCounted_searchname _ _ (map_addbase_str outsect) string).symm, rfl, rfl⟩

theorem evaluate_withN_none (failed : evaluate flags scan = none) :
    evaluate flags.withN scan = none := by
  simp only [evaluate, undefinedFlags_withN] at failed ⊢
  cases completed : completeSections (undefinedFlags flags scan.tables.globals)
      (normCommons (undefinedFlags flags scan.tables.globals).rflag scan.outsect
        scan.tables.globals).2 scan.nsect scan.outsect with
  | none =>
    have completed' : completeSections (undefinedFlags flags scan.tables.globals).withN
        (normCommons (undefinedFlags flags scan.tables.globals).withN.rflag scan.outsect
          scan.tables.globals).2 scan.nsect scan.outsect = none := completed
    rw [completed']
    rfl
  | some outsect =>
    rw [completed] at failed
    split at failed
    · cases failed
    · cases failed

theorem changeLoop_at (outsect : Nat → OutSect) (cnt : Nat) (names : List Name) (i : Nat) :
    (changeLoop outsect cnt names)[i]? =
      if i < cnt then (names[i]?).map (addbase outsect) else names[i]? := by
  rw [changeLoop]
  by_cases counted : i < cnt
  · rw [if_pos counted]
    by_cases bound : i < names.length
    · rw [List.getElem?_append_left (by simp; omega), List.getElem?_map,
        List.getElem?_take_of_lt counted]
    · rw [List.getElem?_eq_none (by simp; omega), List.getElem?_eq_none (by omega)]
      rfl
  · rw [if_neg counted]
    by_cases short : names.length ≤ cnt
    · rw [List.getElem?_eq_none (by simp; omega), List.getElem?_eq_none (by omega)]
    · rw [List.getElem?_append_right (by simp; omega), List.getElem?_drop]
      congr 1
      simp
      omega

theorem Shifted.entry (shifted : Shifted plan plan') {i : Nat} {entry : Name}
    (here : plan'.globals.names[i]? = some entry) :
    ∃ valu, plan.globals.names[i]? = some { entry with valu := valu } ∧
      (valu = entry.valu + typeBase plan.outsect entry.type ∨ valu = entry.valu) ∧
      (plan.globals.names.length < 65536 →
        valu = entry.valu + typeBase plan.outsect entry.type) := by
  have at_ := changeLoop_at plan.outsect plan'.globals.nglobals.toNat plan'.globals.names i
  rw [← shifted.names, here] at at_
  split at at_
  · refine ⟨_, ?_, Or.inl rfl, fun _ => rfl⟩
    rw [at_, Option.map_some, addbase_eq]
  · rename_i later
    refine ⟨entry.valu, at_, Or.inr rfl, ?_⟩
    intro few
    have bound := (List.getElem?_eq_some_iff.mp at_).1
    rw [shifted.nglobals, nglobals_toNat few] at later
    exact absurd bound later

end Plans

/-! ## The second pass -/

section Runs

variable {plan plan' : Plan}

theorem isUndefined_styp {name : Name} (undefined : name.isUndefined = true) :
    styp name.type = sUnd := by
  simp only [Name.isUndefined, beq_iff_eq] at undefined
  have bits := congrArg (· &&& 0x7f#16) undefined
  simp only [BitVec.and_assoc] at bits
  have mask : (0xff#16 &&& 0x7f#16) = 0x7f#16 := by decide
  have value : (0x80#16 &&& 0x7f#16) = 0#16 := by decide
  rw [mask, value] at bits
  simp only [styp, bits]
  rfl

theorem typeBase_open {outsect : Nat → OutSect} {name : Name}
    (open_ : (name.isCommon || name.isUndefined) = true) : typeBase outsect name.type = 0 := by
  rw [Bool.or_eq_true] at open_
  simp only [typeBase]
  split
  · rfl
  · rename_i settled
    rcases open_ with common | undefined
    · rw [isCommon_eq, Bool.and_eq_true] at common
      rw [if_pos common.1]
    · exact absurd (Or.inl (isUndefined_styp undefined)) settled

theorem ofInt_natCast (valu : BitVec 32) : BitVec.ofInt 32 (valu.toNat : Int) = valu := by
  simp

/-- `relocate` finds the same index in both runs, and adds the base of the section of
the global name in one of them. -/
theorem Shifted.refer (shifted : Shifted plan plan') (origin : Nat → Int) (names : List Name)
    (relo : Relo) :
    (Led.refer plan origin names relo 0 = none ∧ Led.refer plan' origin names relo 0 = none) ∨
      ∃ nami target target' shift, Led.refer plan origin names relo 0 = some (nami, target) ∧
        Led.refer plan' origin names relo 0 = some (nami, target') ∧
        BitVec.ofInt 32 target = BitVec.ofInt 32 target' + shift ∧
        (shift = referredBase plan names relo ∨ shift = 0) ∧
        (plan.globals.names.length < 65536 → shift = referredBase plan names relo) := by
  unfold Led.refer referredBase
  rw [shifted.nlocals, shifted.nglobals, shifted.nsect]
  cases names[relo.nami.toNat]? with
  | none => exact Or.inr ⟨_, _, _, 0, rfl, rfl, (BitVec.add_zero _).symm, Or.inl rfl, fun _ => rfl⟩
  | some name =>
    simp only
    unfold addrelo
    rw [shifted.nlocals, shifted.nglobals, shifted.nsect, shifted.outsect]
    split
    · exact Or.inr ⟨_, _, _, 0, rfl, rfl, (BitVec.add_zero _).symm, Or.inl rfl, fun _ => rfl⟩
    · rw [SymTab.lookup, shifted.searchname]
      cases found : plan.globals.searchname name.str with
      | none => exact Or.inl ⟨rfl, rfl⟩
      | some i =>
        simp only [Option.bind_some]
        cases here : plan'.globals.names[i]? with
        | none =>
          have absent : plan.globals.names[i]? = none := by
            have at_ := changeLoop_at plan.outsect plan'.globals.nglobals.toNat
              plan'.globals.names i
            rw [← shifted.names, here] at at_
            simpa using at_
          rw [absent]
          exact Or.inl ⟨rfl, rfl⟩
        | some entry =>
          obtain ⟨valu, atPlan, either, counted⟩ := shifted.entry here
          rw [atPlan]
          right
          simp only [Option.map_some]
          cases open_ : entry.isCommon || entry.isUndefined with
          | true =>
            have zero : typeBase plan.outsect entry.type = 0 := typeBase_open open_
            have same : ({ entry with valu := valu } : Name).isCommon ||
                ({ entry with valu := valu } : Name).isUndefined := open_
            refine ⟨_, 0, 0, 0, if_pos same, if_pos rfl, (BitVec.add_zero _).symm, ?_, ?_⟩
            · exact Or.inr rfl
            · intro _
              exact zero.symm
          | false =>
            have same : ¬(({ entry with valu := valu } : Name).isCommon ||
                ({ entry with valu := valu } : Name).isUndefined) = true := by
              rw [show (({ entry with valu := valu } : Name).isCommon ||
                ({ entry with valu := valu } : Name).isUndefined) = false from open_]
              decide
            refine ⟨_, _, _, valu - entry.valu, if_neg same, if_neg (by decide), ?_, ?_, ?_⟩
            · simp only [zero_add, ofInt_natCast]
              rw [BitVec.add_comm, BitVec.sub_add_cancel]
            · rcases either with shift | none
              · left
                rw [shift]
                simp
              · right
                rw [none]
                simp
            · intro few
              rw [counted few]
              simp

theorem truncate_add {w : Nat} {base : BitVec 32} (valu : BitVec 32) (narrow : w ≤ 32)
    (zero : base.toNat % 2 ^ w = 0) : (valu + base).truncate w = valu.truncate w := by
  apply BitVec.eq_of_toNat_eq
  have divides : 2 ^ w ∣ 2 ^ 32 := Nat.pow_dvd_pow 2 narrow
  simp only [BitVec.toNat_setWidth, BitVec.toNat_add]
  rw [Nat.mod_mod_of_dvd _ divides, Nat.add_mod, zero, Nat.add_zero, Nat.mod_mod]

theorem putvalu_unseen {type : BitVec 16} {base : BitVec 32} (unseen : Unseen type base)
    (valu : BitVec 32) (addr : Core) : putvalu (valu + base) addr type = putvalu valu addr type := by
  unfold Unseen at unseen
  by_cases zero : base = 0
  · rw [zero, add_zero]
  · cases size : relsz type with
    | none =>
      rw [size] at unseen
      exact absurd unseen zero
    | some kind =>
      rw [size, Option.bind_some] at unseen
      unfold putvalu
      simp only [size]
      cases kind with
      | relo1 =>
        have low : base.toNat % 2 ^ 8 = 0 := unseen
        simp only [truncate_add valu (by decide) low]
      | relo2 =>
        have low : base.toNat % 2 ^ 16 = 0 := unseen
        simp only [truncate_add valu (by decide) low]
      | relo4 =>
        have whole : base.toNat % 2 ^ 32 = 0 := unseen
        rw [Nat.mod_eq_of_lt base.isLt] at whole
        exact absurd (BitVec.eq_of_toNat_eq whole) zero
      | _ => exact absurd unseen zero

theorem unseen_zero (type : BitVec 16) : Unseen type 0 := by
  unfold Unseen
  split
  · exact Nat.zero_mod _
  · rfl

theorem ofInt_shift {target target' : Int} {shift : BitVec 32}
    (differ : BitVec.ofInt 32 target = BitVec.ofInt 32 target' + shift) (old pc : Int) :
    BitVec.ofInt 32 (old + target - pc) = BitVec.ofInt 32 (old + target' - pc) + shift := by
  rw [Int.sub_eq_add_neg, Int.sub_eq_add_neg, BitVec.ofInt_add, BitVec.ofInt_add, BitVec.ofInt_add,
    BitVec.ofInt_add, differ]
  ac_rfl

/-- `relocate` is the same in both runs where the name that is referred to has no base. -/
theorem Shifted.relocate_eq (shifted : Shifted plan plan') (relorig : Nat → Int)
    (names : List Name) (emit : Core) (relo : Relo) (off : Nat)
    (unseen : Unseen relo.type (referredBase plan names relo)) :
    relocate plan relorig names emit relo off = relocate plan' relorig names emit relo off := by
  unfold relocate
  dsimp only
  congr 1
  funext old
  rw [refer_add plan, refer_add plan', shifted.outsect]
  rcases shifted.refer relorig names relo with
    ⟨none, none'⟩ | ⟨nami, target, target', shift, found, found', differ, either, _⟩
  · rw [none, none']
  · have hidden : Unseen relo.type shift := by
      rcases either with rfl | rfl
      · exact unseen
      · exact unseen_zero _
    rw [found, found']
    simp only [Option.map_some, Option.bind_eq_bind, Option.bind_some]
    congr 1
    refine Eq.trans ?_ (putvalu_unseen hidden _ _)
    congr 1
    split
    · exact ofInt_shift differ _ _
    · have plain := ofInt_shift differ (old.toNat : Int) 0
      rwa [sub_zero, sub_zero] at plain

/-- The two runs of a relocation to a name without a base are the same. -/
theorem Shifted.run_eq (shifted : Shifted plan plan') (job : Job)
    (unseen : Unseen job.relo.type (referredBase plan job.saved.modul.names job.relo))
    (emits : Nat → Core) : job.run plan emits = job.run plan' emits := by
  unfold Job.run
  dsimp only
  rw [shifted.relocate_eq _ _ _ _ _ unseen]

end Runs

section Outputs

variable {flags : Flags} {undefs : List Str} {moduls : List Module} {scan : Scan}
  {plan plan' : Plan} {pass : Pass2}

theorem Shifted.secondPass_eq (shifted : Shifted plan plan') (placed : Placed moduls scan)
    (unseen : ∀ modul ∈ moduls, ∀ relo ∈ modul.relos,
      Unseen relo.type (referredBase plan modul.names relo)) :
    secondPass plan' scan = secondPass plan scan := by
  rw [placed.secondPass_eq, placed.secondPass_eq, finish_eq, finish_eq]
  congr 1
  apply Lib.foldlM_congr
  intro job member state
  obtain ⟨k, savedK, inRelos, _⟩ := mem_jobs member
  obtain ⟨modul, atK, same⟩ := saved_modul placed savedK
  have hidden : Unseen job.relo.type (referredBase plan job.saved.modul.names job.relo) := by
    rw [same] at inRelos ⊢
    exact unseen modul (List.mem_of_getElem? atK) job.relo inRelos
  rw [Job.step, Job.step, shifted.run_eq job hidden]

theorem referredBase_zero (zero : ∀ s, (plan.outsect s).base = 0) (names : List Name)
    (relo : Relo) : referredBase plan names relo = 0 := by
  unfold referredBase
  cases names[relo.nami.toNat]? with
  | none => rfl
  | some name =>
    simp only [typeBase_zero zero]
    split
    · rfl
    · cases plan.globals.lookup name.str with
      | none => rfl
      | some entry => rfl

theorem Baseless.unseen (baseless : Baseless moduls plan) :
    ∀ modul ∈ moduls, ∀ relo ∈ modul.relos,
      Unseen relo.type (referredBase plan modul.names relo) := by
  unfold Baseless at baseless
  split at baseless
  · exact baseless
  · intro modul _ relo _
    rw [referredBase_zero baseless]
    exact unseen_zero _

theorem offsetIn_zero {outsect : Nat → OutSect} (zero : ∀ s, (outsect s).base = 0) :
    Name.offsetIn outsect = id := by
  funext name
  simp [Name.offsetIn, typeBase_zero zero]

theorem Shifted.localNames_eq (shifted : Shifted plan plan') (baseless : Baseless moduls plan) :
    localNames plan' = localNames plan := by
  have sflag : plan'.flags.sflag = plan.flags.sflag := by rw [shifted.flags]; rfl
  have rflag : plan'.flags.rflag = plan.flags.rflag := by rw [shifted.flags]; rfl
  unfold Baseless at baseless
  unfold localNames
  rw [sflag]
  split
  · rfl
  · rename_i keep
    rw [if_neg keep] at baseless
    have names := shifted.names
    have locals := shifted.locals
    rw [changeLoop_zero baseless] at names locals
    rw [← locals, shifted.nlocals]
    congr 1
    funext name
    simp only [doCrs, shifted.searchname, shifted.nlocals, rflag, names]

/-- If nothing depends on `change_names` both runs give the same names. -/
theorem Shifted.output (shifted : Shifted plan plan') (baseless : Baseless moduls plan)
    (pass : Pass2) :
    Option.Rel NamesOnly (Led.output flags scan plan pass)
      (Led.output flags.withN scan plan' pass) := by
  have sflag : plan'.flags.sflag = plan.flags.sflag := by rw [shifted.flags]; rfl
  have rflag : plan'.flags.rflag = plan.flags.rflag := by rw [shifted.flags]; rfl
  have cflag : plan'.flags.cflag = plan.flags.cflag := by rw [shifted.flags]; rfl
  unfold Led.output
  rw [shifted.localNames_eq baseless, sflag, rflag, cflag, shifted.nsect, shifted.outsect,
    shifted.nglobals, shifted.nlocals]
  cases localNames plan with
  | none => exact Option.Rel.none
  | some locals =>
    apply Option.Rel.some
    refine ⟨⟨rfl, rfl, rfl, rfl⟩, rfl, fun s => ⟨rfl, Agree.refl _ _⟩, rfl, ?_⟩
    unfold Baseless at baseless
    cases strip : plan.flags.sflag with
    | true => rfl
    | false =>
      rw [strip] at baseless
      have names := shifted.names
      rw [changeLoop_zero baseless] at names
      simp only [Bool.false_eq_true, if_false, offsetIn_zero baseless, List.map_id,
        sectionNames, shifted.nsect, shifted.outsect, names]

/-! ## The second pass out of core -/

theorem Shifted.types (shifted : Shifted plan plan') (i : Nat) :
    (plan.globals.names[i]?).map Name.type = (plan'.globals.names[i]?).map Name.type := by
  rw [shifted.names, changeLoop_at]
  split
  · rw [Option.map_map]
    congr 1
    funext name
    rw [Function.comp_apply, addbase_eq]
  · rfl

theorem Shifted.adjustName_reference (shifted : Shifted plan plan') (area : StringArea)
    (name : Name) :
    (adjustName plan area name).map Name.reference =
      (adjustName plan' area name).map Name.reference := by
  have rflag : plan'.flags.rflag = plan.flags.rflag := by rw [shifted.flags]; rfl
  unfold adjustName
  split
  · rename_i crs
    cases area.address name.valu.toNat with
    | none => rfl
    | some string =>
      simp only [Option.bind_some, doCrs, if_pos crs, shifted.searchname, rflag, shifted.nlocals]
      cases plan.globals.searchname string with
      | none => rfl
      | some i =>
        simp only
        split
        · rfl
        · have types := shifted.types i
          cases here : plan.globals.names[i]? with
          | none =>
            rw [here] at types
            rw [Option.map_eq_none_iff.mp types.symm]
          | some p =>
            rw [here] at types
            obtain ⟨p', there, type⟩ := Option.map_eq_some_iff.mp types.symm
            rw [there]
            simp only [Option.map_some, Name.reference, type]
  · rfl

theorem mapM_map_congr {α β γ : Type*} {f g : α → Option β} {h : β → γ}
    (same : ∀ a, (f a).map h = (g a).map h) (list : List α) :
    (list.mapM f).map (List.map h) = (list.mapM g).map (List.map h) := by
  induction list with
  | nil => rfl
  | cons a rest ih =>
    have one := same a
    rw [List.mapM_cons, List.mapM_cons]
    cases here : f a with
    | none =>
      rw [here] at one
      rw [Option.map_eq_none_iff.mp one.symm]
      rfl
    | some b =>
      rw [here] at one
      obtain ⟨b', here', equal⟩ := Option.map_eq_some_iff.mp one.symm
      rw [here']
      cases later : rest.mapM f with
      | none =>
        rw [later] at ih
        simp only [Option.bind_eq_bind, Option.bind_some, Option.map_eq_none_iff.mp ih.symm]
        rfl
      | some bs =>
        rw [later] at ih
        obtain ⟨bs', later', equals⟩ := Option.map_eq_some_iff.mp ih.symm
        simp only [later', Option.bind_eq_bind, Option.bind_some, Option.pure_def, Option.map_some,
          List.map_cons, equal, equals]

theorem isSct_doCrs (type value : BitVec 16) :
    isSct ((type &&& ~~~0x7f#16) ||| (value &&& 0x7f#16)) = isSct type := by
  have none : (0x7f#16 &&& 0x100#16) = 0#16 := by decide
  have all : (~~~0x7f#16 &&& 0x100#16) = 0x100#16 := by decide
  simp only [isSct, BitVec.and_or_distrib_right, BitVec.and_assoc, none, all, BitVec.and_zero,
    BitVec.or_zero]

theorem adjustName_some {area : StringArea} {name name' : Name}
    (ran : adjustName plan area name = some name') :
    isSct name'.type = isSct name.type ∧ name'.str = name.str := by
  unfold adjustName at ran
  split at ran
  · rename_i crs
    obtain ⟨string, -, done⟩ := Option.bind_eq_some_iff.mp ran
    rw [doCrs, if_pos crs] at done
    split at done
    · cases done
    · split at done
      · cases done
        exact ⟨rfl, rfl⟩
      · obtain ⟨p, -, rfl⟩ := Option.map_eq_some_iff.mp done
        exact ⟨isSct_doCrs _ _, rfl⟩
  · cases ran
    exact ⟨rfl, rfl⟩

theorem referredBase_adjusted {area : StringArea} {names names' : List Name}
    (ran : names.mapM (adjustName plan area) = some names') (relo : Relo) :
    referredBase plan names' relo = referredBase plan names relo := by
  obtain ⟨length, each⟩ := mapM_made ran
  unfold referredBase
  cases here : names[relo.nami.toNat]? with
  | none =>
    have past := List.getElem?_eq_none_iff.mp here
    rw [List.getElem?_eq_none (by omega)]
  | some name =>
    have there := each _ name here
    cases adjusted : adjustName plan area name with
    | none =>
      have bound := (List.getElem?_eq_some_iff.mp here).1
      rw [adjusted, List.getElem?_eq_none_iff] at there
      omega
    | some name' =>
      obtain ⟨sct, str⟩ := adjustName_some adjusted
      rw [there, adjusted]
      simp only [sct, str]

section Files

variable {area : StringArea} {room : Nat → Nat → Nat → Bool} {modul : Module}

theorem Shifted.emitBlock_eq (shifted : Shifted plan plan') {names names' : List Name}
    (reference : names.map Name.reference = names'.map Name.reference) {block : Block}
    (unseen : ∀ relo ∈ block.relos, Unseen relo.type (referredBase plan names relo)) (s : Nat)
    (contents : Core) (state : Written) :
    emitBlock plan names s contents state block = emitBlock plan' names' s contents state block := by
  have rflag : plan'.flags.rflag = plan.flags.rflag := by rw [shifted.flags]; rfl
  have cflag : plan'.flags.cflag = plan.flags.cflag := by rw [shifted.flags]; rfl
  have same : block.relos.foldlM (relocateIn plan state.relorig names block)
      (window contents block.off, []) =
      block.relos.foldlM (relocateIn plan' state.relorig names' block)
        (window contents block.off, []) := by
    apply Lib.foldlM_congr
    intro relo member soFar
    unfold relocateIn
    dsimp only
    rw [shifted.relocate_eq _ _ _ _ _ (unseen relo member), relocate_congr reference]
  unfold emitBlock
  rw [same, rflag, cflag]

theorem Shifted.emitSection_eq (shifted : Shifted plan plan') {names names' : List Name}
    (reference : names.map Name.reference = names'.map Name.reference)
    (unseen : ∀ relo ∈ modul.relos, Unseen relo.type (referredBase plan names relo))
    (room : Nat → Nat → Bool) (state : Written) (s : Nat) :
    emitSection plan room (directAlloc modul) names state s =
      emitSection plan' room (directAlloc modul) names' state s := by
  unfold emitSection emitBytes
  dsimp only
  congr 1
  split
  · rfl
  · rw [directAlloc_getD, rounded_flen]
    cases made : blocks (room s) (modul.sect s).flen.toNat
        ((directAlloc modul).relos.filter fun relo => relo.sect.toNat = s + sMin) with
    | none => rfl
    | some list =>
      simp only [Option.bind_some]
      apply Lib.foldlM_congr
      intro block member state
      have within : block.Within modul s := blocks_within made block member
      exact shifted.emitBlock_eq reference
        (fun relo inBlock => unseen relo (within.relos.subset inBlock)) _ _ _

/-- If nothing depends on `change_names` a module is finished in the same way in both runs. -/
theorem Shifted.finishModul_eq (shifted : Shifted plan plan') (baseless : Baseless moduls plan)
    (member : modul ∈ moduls) (state : Written) (k : Nat) :
    finishModul plan area room state (modul, k) = finishModul plan' area room state (modul, k) := by
  have sflag : plan'.flags.sflag = plan.flags.sflag := by rw [shifted.flags]; rfl
  have rflag : plan'.flags.rflag = plan.flags.rflag := by rw [shifted.flags]; rfl
  have references := mapM_map_congr (shifted.adjustName_reference area) modul.names
  unfold finishModul
  dsimp only
  have read : (directAlloc modul).names = modul.names := rfl
  rw [read]
  cases adjusted : modul.names.mapM (adjustName plan area) with
  | none =>
    rw [adjusted] at references
    rw [Option.map_eq_none_iff.mp references.symm]
    rfl
  | some names =>
    rw [adjusted] at references
    obtain ⟨names', adjusted', reference⟩ := Option.map_eq_some_iff.mp references.symm
    have unseen : ∀ relo ∈ modul.relos, Unseen relo.type (referredBase plan names relo) := by
      intro relo inRelos
      rw [referredBase_adjusted adjusted]
      exact baseless.unseen modul member relo inRelos
    have locals : ∀ relorig, putLocals plan relorig names = putLocals plan' relorig names' := by
      intro relorig
      unfold putLocals
      rw [sflag, shifted.outsect]
      split
      · rfl
      · rename_i keep
        unfold Baseless at baseless
        rw [if_neg keep] at baseless
        have globals := shifted.names
        rw [changeLoop_zero baseless] at globals
        have same : adjustName plan area = adjustName plan' area := by
          funext name
          simp only [adjustName, doCrs, shifted.searchname, shifted.nlocals, rflag, globals]
        rw [← same, adjusted] at adjusted'
        cases adjusted'
        rfl
    rw [adjusted']
    simp only [Option.bind_eq_bind, Option.bind_some, locals]
    congr 1
    apply Lib.foldlM_congr
    intro s _ before
    exact shifted.emitSection_eq reference.symm unseen _ _ _

theorem Shifted.secondPassFiles_eq (shifted : Shifted plan plan')
    (baseless : Baseless moduls plan) :
    secondPassFiles plan area room scan moduls = secondPassFiles plan' area room scan moduls := by
  unfold secondPassFiles
  apply Lib.foldlM_congr
  rintro ⟨modul, k⟩ member state
  exact shifted.finishModul_eq baseless (List.fst_mem_of_mem_zipIdx member) state k

theorem Shifted.writtenOutput (shifted : Shifted plan plan') (baseless : Baseless moduls plan)
    (state : Written) :
    NamesOnly (Led.writtenOutput flags scan plan state)
      (Led.writtenOutput flags.withN scan plan' state) := by
  have sflag : plan'.flags.sflag = plan.flags.sflag := by rw [shifted.flags]; rfl
  have rflag : plan'.flags.rflag = plan.flags.rflag := by rw [shifted.flags]; rfl
  have cflag : plan'.flags.cflag = plan.flags.cflag := by rw [shifted.flags]; rfl
  unfold Led.writtenOutput
  rw [sflag, rflag, cflag, shifted.nsect, shifted.outsect, shifted.nglobals, shifted.nlocals]
  refine ⟨⟨rfl, rfl, rfl, rfl⟩, rfl, fun s => ⟨rfl, Agree.refl _ _⟩, rfl, ?_⟩
  unfold Baseless at baseless
  cases strip : plan.flags.sflag with
  | true => rfl
  | false =>
    rw [strip] at baseless
    have names := shifted.names
    rw [changeLoop_zero baseless] at names
    simp only [Bool.false_eq_true, if_false, offsetIn_zero baseless, List.map_id, sectionNames,
      shifted.nsect, shifted.outsect, names]

end Files

/-! ## What the names and fields give away -/

theorem rewriteCounted_length (tab : SymTab) (change : List Name → List Name)
    (keeps : ∀ names, (change names).map Name.str = names.map Name.str) :
    (tab.rewriteCounted change keeps).names.length = tab.names.length := by
  have lengths := congrArg List.length (keeps (tab.names.take tab.nglobals.toNat))
  simp only [List.length_map] at lengths
  simp only [SymTab.rewriteCounted, SymTab.rewrite, List.length_append, lengths, List.length_take,
    List.length_drop]
  omega

theorem changeLoop_length (outsect : Nat → OutSect) (cnt : Nat) (names : List Name) :
    (changeLoop outsect cnt names).length = names.length := by
  simp only [changeLoop, List.length_append, List.length_map, List.length_take, List.length_drop]
  omega

/-- `evaluate` keeps the counts, and sections that are not there have no base. -/
theorem evaluate_counts (ran : evaluate flags scan = some plan) :
    plan.globals.names.length = scan.tables.globals.names.length ∧
      plan.locals.length = scan.tables.locals.length ∧ plan.nlocals = scan.tables.nlocals ∧
      plan.nsect = scan.nsect ∧
      ∀ s, scan.nsect ≤ s → (plan.outsect s).base = (scan.outsect s).base := by
  have normed : (normCommons (undefinedFlags flags scan.tables.globals).rflag scan.outsect
      scan.tables.globals).1.names.length = scan.tables.globals.names.length := by
    unfold normCommons
    split
    · rfl
    · exact rewriteCounted_length _ _ _
  simp only [evaluate] at ran
  obtain ⟨outsect, completed, rest⟩ := Option.bind_eq_some_iff.mp ran
  have later := (completeSections_base completed).1
  split at rest
  · cases rest
    exact ⟨normed, rfl, rfl, rfl, later⟩
  · cases rest
    refine ⟨?_, changeLoop_length _ _ _, rfl, rfl, later⟩
    rw [rewriteCounted_length, normed]

structure Counted (plan : Plan) : Prop where
  globals : plan.globals.names.length < 65536
  nsect : plan.nsect ≤ maxsect

theorem evaluate_counted (wellFormed : ∀ modul ∈ moduls, modul.WellFormed)
    (fits : Fits flags undefs moduls) (first : firstPass flags undefs moduls = some scan)
    (ran : evaluate flags scan = some plan) : Counted plan := by
  obtain ⟨globals, _, _, nsect, _⟩ := evaluate_counts ran
  have collected := firstPass_collected first
  refine ⟨by rw [globals, collected.length_eq]; exact fits.globals, ?_⟩
  rw [nsect, (firstPass_placed first).nsect]
  exact sectionCount_few wellFormed

variable {out out' : Output}

theorem output_names (counted : Counted plan) (made : Led.output flags scan plan pass = some out)
    (keep : plan.flags.sflag = false) : ∃ others, out.names = others ++ sectionNames plan := by
  obtain ⟨_, _, _, _, _, names⟩ := output_some made
  obtain ⟨locals, _, written, _⟩ := names keep
  refine ⟨locals ++ plan.globals.names, ?_⟩
  rw [written, nglobals_toNat counted.globals, List.take_of_length_le, List.append_assoc]
  simp [sectionNames]

theorem sectionType (s : Nat) (few : s < maxsect) :
    styp (BitVec.ofNat 16 (sMin + s) ||| 0x100#16) = sMin + s ∧
      isCom (BitVec.ofNat 16 (sMin + s) ||| 0x100#16) = false := by
  have all : ∀ s < maxsect, styp (BitVec.ofNat 16 (sMin + s) ||| 0x100#16) = sMin + s ∧
      isCom (BitVec.ofNat 16 (sMin + s) ||| 0x100#16) = false := by decide
  exact all s few

/-- The name of a section is written with its base as value in both runs. -/
theorem Shifted.no_base (shifted : Shifted plan plan') (counted : Counted plan)
    {others others' : List Name}
    (names : others' ++ sectionNames plan' =
      (others ++ sectionNames plan).map (Name.offsetIn plan.outsect))
    (s : Nat) (few : s < plan.nsect) : (plan.outsect s).base = 0 := by
  rw [List.map_append] at names
  have sections := List.append_inj_right' names (by
    simp only [sectionNames, List.length_map, List.length_range, shifted.nsect])
  have bound := counted.nsect
  obtain ⟨type, com⟩ := sectionType s (by omega)
  have entry := congrArg (fun list : List Name => (list[s]?).map Name.valu) sections
  simp only [sectionNames, shifted.nsect, shifted.outsect, List.getElem?_map,
    List.getElem?_range few, Option.map_some, Option.some.injEq, Name.offsetIn, typeBase, type,
    com] at entry
  rw [if_neg (by simp only [sUnd, sAbs, sCrs, sMin, maxsect] at *; omega)] at entry
  simp only [Bool.false_eq_true, if_false, Nat.add_sub_cancel_left, BitVec.sub_self] at entry
  exact entry

/-- A field that holds a whole number shows the base of the section that it refers to. -/
theorem Shifted.unseen_of_fields (shifted : Shifted plan plan') (counted : Counted plan)
    {origin : Nat → Int} {names : List Name} {relo : Relo} {kind : Relsz} {modulus : Nat}
    (size : relsz relo.type = some kind) (plain : kind.modulus = some modulus)
    {original field field' : Core} {old : BitVec 32} {nami nami' : BitVec 16} {target target' : Int}
    (found : Led.refer plan origin names relo 0 = some (nami, target))
    (found' : Led.refer plan' origin names relo 0 = some (nami', target'))
    (written : putvalu (BitVec.ofInt 32 ((old.toNat : Int) + target - pcOrigin plan origin relo))
      original relo.type = some field)
    (written' : putvalu
      (BitVec.ofInt 32 ((old.toNat : Int) + target' - pcOrigin plan' origin relo))
      original relo.type = some field')
    (fields : Agree (extent original relo.type) field field') :
    (referredBase plan names relo).toNat % modulus = 0 := by
  obtain ⟨got, readBack, gotMod⟩ := getvalu_putvalu size plain written
  obtain ⟨got', readBack', gotMod'⟩ := getvalu_putvalu size plain written'
  rw [extent_plain size plain _ field] at fields
  rw [← getvalu_eq fields, readBack'] at readBack
  cases readBack
  have divides := modulus_dvd plain
  have samePc : pcOrigin plan' origin relo = pcOrigin plan origin relo := by
    simp only [pcOrigin, shifted.outsect]
  rcases shifted.refer origin names relo with
    ⟨none, _⟩ | ⟨_, _, _, shift, known, known', differ, _, exact_⟩
  · rw [none] at found
    cases found
  · rw [known] at found
    rw [known'] at found'
    cases found
    cases found'
    rw [← exact_ counted.globals]
    rw [ofInt_shift differ, ← samePc, BitVec.toNat_add, Nat.mod_mod_of_dvd _ divides, gotMod']
      at gotMod
    have cancelled : (0 : Nat) ≡ shift.toNat [MOD modulus] := by
      apply Nat.ModEq.add_left_cancel' (BitVec.ofInt 32 ((old.toNat : Int) + target' -
        pcOrigin plan' origin relo)).toNat
      exact gotMod
    rw [← cancelled]
    exact Nat.zero_mod _

section Shown

variable (shifted : Shifted plan plan') (counted : Counted plan)
  (wellFormed : ∀ modul ∈ moduls, modul.WellFormed) (same : NamesOnly out out')
  {modul : Module} (inModuls : modul ∈ moduls) {relo : Relo} (inRelos : relo ∈ modul.relos)
  {kind : Relsz} {modulus : Nat} (size : relsz relo.type = some kind)
  (plain : kind.modulus = some modulus)
include shifted counted wellFormed same inModuls inRelos size plain

theorem Shifted.unseen_field (placed : Placed moduls scan) {pass' : Pass2}
    (relocated : Relocated moduls plan pass.emits) (relocated' : Relocated moduls plan' pass'.emits)
    (made : Led.output flags scan plan pass = some out)
    (made' : Led.output flags.withN scan plan' pass' = some out') :
    (referredBase plan modul.names relo).toNat % modulus = 0 := by
  obtain ⟨k, atK⟩ := List.mem_iff_getElem?.mp inModuls
  have inside := ((wellFormed modul inModuls).inside relo inRelos).2.2
  obtain ⟨old, nami, target, field, read, found, written, agree⟩ :=
    relocated.fields k modul atK relo inRelos
  obtain ⟨old', nami', target', field', read', found', written', agree'⟩ :=
    relocated'.fields k modul atK relo inRelos
  rw [read] at read'
  cases read'
  have emits := (output_some made).2.2.2.1 (relo.sect.toNat - sMin)
  have emits' := (output_some made').2.2.2.1 (relo.sect.toNat - sMin)
  have contents := (same.contents (relo.sect.toNat - sMin)).2
  rw [emits, emits'] at contents
  refine shifted.unseen_of_fields counted size plain found found' written written' ?_
  -- both fields are in the bytes that the outputs share
  intro i bound
  rw [agree i bound, agree' i bound]
  have low := inside (relo.sect.toNat - sMin, relo.addr.toNat + i)
    ⟨rfl, Nat.le_add_right _ _, Nat.add_lt_add_left bound _⟩
  simp only at low
  have fit := placed.inside k modul atK (relo.sect.toNat - sMin) (by omega)
  rw [← placed.full] at fit
  exact (contents _ (by simp only; omega)).symm

/-- Out of core the base of a name is not seen in a field that is the same in both runs. -/
theorem Shifted.unseen_written {area : StringArea} {room : Nat → Nat → Nat → Bool}
    {state state' : Written}
    (ran : secondPassFiles plan area room scan moduls = some state)
    (ran' : secondPassFiles plan' area room scan moduls = some state')
    (emits : out.emits = state.emits) (emits' : out'.emits = state'.emits) :
    (referredBase plan modul.names relo).toNat % modulus = 0 := by
  have good := wellFormed modul inModuls
  obtain ⟨sMin_le, present, inside⟩ := good.inside relo inRelos
  obtain ⟨k, atK⟩ := List.mem_iff_getElem?.mp inModuls
  -- the module, the section and the block that the relocation is in
  obtain ⟨-, -, -, modulTurn⟩ := Lib.foldlM_pair ran ran' Written.Alike Written.Grown .refl .trans
    (fun _ stepped => stepped.elim finishModul_grown finishModul_grown)
    (fun _ alike stepped stepped' => (finishModul_pair alike stepped stepped').1) (.refl _)
  obtain ⟨m1, m1', t1, t1', alike1, finished, finished', grown1, grown1'⟩ :=
    modulTurn (modul, k) (List.mem_iff_getElem?.mpr ⟨k, by simp [List.getElem?_zipIdx, atK]⟩)
  obtain ⟨-, -, -, names, names', adjusted, adjusted', sectionTurn⟩ :=
    finishModul_pair alike1 finished finished'
  obtain ⟨m2, m2', t2, t2', alike2, emitted, emitted', grown2, grown2'⟩ :=
    sectionTurn (relo.sect.toNat - sMin) present
  obtain ⟨-, -, -, blocksTurn⟩ := emitSection_pair alike2 emitted emitted'
  have positive : ∀ addr, 0 < extent addr relo.type := by
    intro addr
    unfold extent
    rw [size]
    cases kind with
    | reloppc | relovc4 => cases plain
    | _ => simp
  have low := inside (relo.sect.toNat - sMin, relo.addr.toNat)
    ⟨rfl, Nat.le_refl _, Nat.lt_add_of_pos_right (positive _)⟩
  simp only at low
  obtain ⟨list, made, blockTurn⟩ := blocksTurn (by omega)
  obtain ⟨block, inList, inBlock⟩ := blocks_cover made
    (List.mem_filter.mpr ⟨inRelos, by simp only [decide_eq_true_eq]; omega⟩) low
  have within := blocks_within made block inList
  obtain ⟨m3, m3', t3, t3', alike3, wrote, wrote', grown3, grown3'⟩ := blockTurn block inList
  obtain ⟨emit, relos, relocated, at3, -, -⟩ := emitBlock_some wrote
  obtain ⟨emit', relos', relocated', at3', -, -⟩ := emitBlock_some wrote'
  rw [alike3.relorig] at relocated'
  obtain ⟨old, nami, target, field, read, found, written, agree⟩ :=
    within.fields good relocated inBlock
  obtain ⟨old', nami', target', field', read', found', written', agree'⟩ :=
    within.fields good relocated' inBlock
  rw [read] at read'
  cases read'
  have reference : names'.map Name.reference = names.map Name.reference := by
    have both := mapM_map_congr (shifted.adjustName_reference area) modul.names
    rw [adjusted, adjusted'] at both
    exact (Option.some.inj both).symm
  rw [refer_congr reference] at found'
  rw [← referredBase_adjusted adjusted]
  refine shifted.unseen_of_fields counted size plain found found' written written' ?_
  -- the bytes of the two blocks are those of the outputs
  obtain ⟨emitIn, fits⟩ := relocateIn_inside relocated inBlock
  rw [extent_plain size plain _ (window (modul.sect (relo.sect.toNat - sMin)).contents
    relo.addr.toNat)] at fits
  have final := (grown3.trans grown2).trans grown1
  have final' := (grown3'.trans grown2').trans grown1'
  intro i bound
  rw [agree i bound, agree' i bound]
  have inEmit : relo.addr.toNat - block.off + i < block.size := by omega
  obtain ⟨below, first⟩ := final.appended at3 inEmit
  obtain ⟨-, second⟩ := final'.appended at3' inEmit
  have shared := (same.contents (relo.sect.toNat - sMin)).2 _ (by rw [emits]; exact below)
  rw [emits, emits', first, ← alike3.full, second] at shared
  exact shared.symm

end Shown

/-- What the two outputs give away together. -/
theorem Shifted.baseless (shifted : Shifted plan plan') (counted : Counted plan)
    (later : ∀ s, plan.nsect ≤ s → (plan.outsect s).base = 0) (same : NamesOnly out out')
    (outsect : out.outsect = plan.outsect)
    (ends : plan.flags.sflag = false → (∃ others, out.names = others ++ sectionNames plan) ∧
      ∃ others, out'.names = others ++ sectionNames plan')
    (plain : ∀ modul ∈ moduls, ∀ relo ∈ modul.relos,
      ((relsz relo.type).bind Relsz.modulus).isSome = true)
    (unseen : ∀ modul ∈ moduls, ∀ relo ∈ modul.relos, ∀ kind modulus,
      relsz relo.type = some kind → kind.modulus = some modulus →
      (referredBase plan modul.names relo).toNat % modulus = 0) : Baseless moduls plan := by
  unfold Baseless
  cases strip : plan.flags.sflag with
  | true =>
    intro modul inModuls relo inRelos
    obtain ⟨modulus, isPlain⟩ := Option.isSome_iff_exists.mp (plain modul inModuls relo inRelos)
    obtain ⟨kind, size, plainKind⟩ := Option.bind_eq_some_iff.mp isPlain
    unfold Unseen
    rw [isPlain]
    exact unseen modul inModuls relo inRelos kind modulus size plainKind
  | false =>
    intro s
    by_cases few : s < plan.nsect
    · obtain ⟨⟨others, ended⟩, others', ended'⟩ := ends strip
      have names := same.names
      rw [ended, ended', outsect] at names
      exact shifted.no_base counted names s few
    · exact later s (Nat.not_lt.mp few)

end Outputs

section Link

variable {flags : Flags} {undefs : List Str} {moduls : List Module}
  {core : Option (Nat → Nat → Nat → Bool)} {scan : Scan} {plan : Plan} {out : Output}

theorem scanWith_base (ran : scanWith core flags undefs moduls = some scan) (s : Nat) :
    (scan.outsect s).base = 0 := by
  cases core with
  | none => exact (firstPass_placed ran).base s
  | some room => exact firstPassNames_base ran s

def linkFrom (core : Option (Nat → Nat → Nat → Bool)) (flags : Flags) (undefs : List Str)
    (moduls : List Module) (scan : Scan) (plan : Plan) : Option Output :=
  match core with
  | none => (secondPass plan scan).bind (output flags scan plan)
  | some room => (secondPassFiles plan (stringArea undefs moduls) room scan moduls).map
      (writtenOutput flags scan plan)

theorem linkWith_eq (core : Option (Nat → Nat → Nat → Bool)) (flags : Flags) (undefs : List Str)
    (moduls : List Module) :
    linkWith core flags undefs moduls = (scanWith core flags undefs moduls).bind fun scan =>
      (evaluate flags scan).bind (linkFrom core flags undefs moduls scan) := by
  cases core with
  | none => rfl
  | some room =>
    unfold linkWith scanWith linkFrom
    cases firstPassNames flags undefs moduls with
    | none => rfl
    | some scan =>
      simp only [Option.bind_eq_bind, Option.bind_some]
      congr 1
      funext plan
      exact (Option.map_eq_bind ..).symm

theorem Shifted.linkFrom {plan' : Plan} (shifted : Shifted plan plan')
    (baseless : Baseless moduls plan) (ran : scanWith core flags undefs moduls = some scan) :
    Option.Rel NamesOnly (Led.linkFrom core flags undefs moduls scan plan)
      (Led.linkFrom core flags.withN undefs moduls scan plan') := by
  cases core with
  | none =>
    unfold Led.linkFrom
    simp only
    rw [shifted.secondPass_eq (firstPass_placed ran) baseless.unseen]
    cases secondPass plan scan with
    | none => exact Option.Rel.none
    | some pass => exact shifted.output baseless pass
  | some room =>
    unfold Led.linkFrom
    simp only
    rw [← shifted.secondPassFiles_eq baseless]
    cases secondPassFiles plan (stringArea undefs moduls) room scan moduls with
    | none => exact Option.Rel.none
    | some state => exact Option.Rel.some (shifted.writtenOutput baseless state)

theorem baseless_enough (nflag : flags.nflag = false)
    (condition : ∀ scan plan, scanWith core flags undefs moduls = some scan →
      evaluate flags scan = some plan → Baseless moduls plan) :
    Option.Rel NamesOnly (linkWith core flags undefs moduls)
      (linkWith core flags.withN undefs moduls) := by
  have sameScan : scanWith core flags.withN undefs moduls = scanWith core flags undefs moduls := by
    cases core <;> rfl
  rw [linkWith_eq, linkWith_eq, sameScan]
  cases first : scanWith core flags undefs moduls with
  | none => exact Option.Rel.none
  | some scan =>
    simp only [Option.bind_some]
    cases evaluated : evaluate flags scan with
    | none =>
      rw [evaluate_withN_none evaluated]
      exact Option.Rel.none
    | some plan =>
      obtain ⟨plan', evaluated', shifted⟩ :=
        evaluate_withN (scanWith_base first) nflag evaluated
      rw [evaluated']
      exact shifted.linkFrom (condition scan plan first evaluated) first

/-- In both ways pass 1 counts the same names and sections. -/
theorem scanWith_counted (wellFormed : ∀ modul ∈ moduls, modul.WellFormed)
    (fits : Fits flags undefs moduls) (first : scanWith core flags undefs moduls = some scan)
    (ran : evaluate flags scan = some plan) : Counted plan := by
  cases core with
  | none => exact evaluate_counted wellFormed fits first ran
  | some room =>
    obtain ⟨whole, inCore⟩ := firstPass_isSome flags undefs wellFormed fits.rounding
    cases (firstPass_names inCore).symm.trans first
    exact evaluate_counted wellFormed fits inCore ran

/-- Two runs with the same output depend on no base. -/
theorem Shifted.baseless_of_same {plan' : Plan} (shifted : Shifted plan plan')
    (counted : Counted plan) (counted' : Counted plan')
    (wellFormed : ∀ modul ∈ moduls, modul.WellFormed) (fits : Fits flags undefs moduls)
    (plain : ∀ modul ∈ moduls, ∀ relo ∈ modul.relos,
      ((relsz relo.type).bind Relsz.modulus).isSome = true)
    (first : scanWith core flags undefs moduls = some scan) (ran : evaluate flags scan = some plan)
    {out' : Output} (same : NamesOnly out out')
    (made : Led.linkFrom core flags undefs moduls scan plan = some out)
    (made' : Led.linkFrom core flags.withN undefs moduls scan plan' = some out') :
    Baseless moduls plan := by
  obtain ⟨_, _, _, nsect, afterwards⟩ := evaluate_counts ran
  have later : ∀ s, plan.nsect ≤ s → (plan.outsect s).base = 0 := by
    intro s past
    rw [afterwards s (by omega)]
    exact scanWith_base first s
  have stripped : plan'.flags.sflag = plan.flags.sflag := by rw [shifted.flags]; rfl
  cases core with
  | none =>
    have placed := firstPass_placed first
    obtain ⟨pass, second, output⟩ := Option.bind_eq_some_iff.mp made
    obtain ⟨pass', second', output'⟩ := Option.bind_eq_some_iff.mp made'
    refine shifted.baseless counted later same (output_some output).2.2.1 (fun keep =>
      ⟨output_names counted output keep, output_names counted' output' (stripped.trans keep)⟩) plain
      fun modul inModuls relo inRelos kind modulus size plainKind => ?_
    exact shifted.unseen_field counted wellFormed same inModuls inRelos size plainKind placed
      (secondPass_relocated wellFormed fits placed second)
      (secondPass_relocated wellFormed fits placed second') output output'
  | some room =>
    obtain ⟨state, files, rfl⟩ := Option.map_eq_some_iff.mp made
    obtain ⟨state', files', rfl⟩ := Option.map_eq_some_iff.mp made'
    refine shifted.baseless counted later same rfl (fun keep => ⟨?_, ?_⟩) plain
      fun modul inModuls relo inRelos kind modulus size plainKind =>
        shifted.unseen_written counted wellFormed same inModuls inRelos size plainKind files files'
          rfl rfl
    · refine ⟨state.names ++ plan.globals.names.take plan.globals.nglobals.toNat, ?_⟩
      simp only [Led.writtenOutput, keep, Bool.false_eq_true, if_false, List.append_assoc]
    · refine ⟨state'.names ++ plan'.globals.names.take plan'.globals.nglobals.toNat, ?_⟩
      simp only [Led.writtenOutput, stripped, keep, Bool.false_eq_true, if_false, List.append_assoc]

end Link

/-- The flag `-n` changes the values of names only, if nothing that is written depends
on the bases otherwise.  Where the relocations are of fields that hold a whole number
that is the only case. -/
theorem link_nflag (core : Option (Nat → Nat → Nat → Bool)) (flags : Flags) (undefs : List Str)
    (moduls : List Module) (nflag : flags.nflag = false) :
    ((∀ scan plan, scanWith core flags undefs moduls = some scan →
        evaluate flags scan = some plan → Baseless moduls plan) →
      Option.Rel NamesOnly (linkWith core flags undefs moduls)
        (linkWith core flags.withN undefs moduls)) ∧
    ∀ scan plan out, scanWith core flags undefs moduls = some scan →
      evaluate flags scan = some plan → linkWith core flags undefs moduls = some out →
      (∀ modul ∈ moduls, modul.WellFormed) → Fits flags undefs moduls →
      (∀ modul ∈ moduls, ∀ relo ∈ modul.relos,
        ((relsz relo.type).bind Relsz.modulus).isSome = true) →
      (Option.Rel NamesOnly (linkWith core flags undefs moduls)
        (linkWith core flags.withN undefs moduls) ↔ Baseless moduls plan) := by
  refine ⟨baseless_enough nflag, fun scan plan out first evaluated linked wellFormed fits plain =>
    ⟨fun related => ?_, fun baseless => ?_⟩⟩
  · obtain ⟨plan', evaluated', shifted⟩ := evaluate_withN (scanWith_base first) nflag evaluated
    have first' : scanWith core flags.withN undefs moduls = some scan := by
      rw [← first]
      cases core <;> rfl
    have counted := scanWith_counted wellFormed fits first evaluated
    have counted' := scanWith_counted wellFormed ({ fits with } : Fits flags.withN undefs moduls)
      first' evaluated'
    rw [linkWith_eq, first, Option.bind_some, evaluated, Option.bind_some] at linked related
    rw [linkWith_eq, first', Option.bind_some, evaluated', Option.bind_some, linked] at related
    cases linked' : linkFrom core flags.withN undefs moduls scan plan' with
    | none =>
      rw [linked'] at related
      cases related
    | some out' =>
      rw [linked'] at related
      cases related with
      | some same =>
        exact shifted.baseless_of_same counted counted' wellFormed fits plain first evaluated same
          linked linked'
  · refine baseless_enough nflag fun scan₁ plan₁ first₁ evaluated₁ => ?_
    cases first.symm.trans first₁
    cases evaluated.symm.trans evaluated₁
    exact baseless

def plainFlags : Flags := { basedFlags with base := fun _ => none }

/-- Everything is in one section, and that has base 0; out of core there is room for four bytes. -/
theorem link_nflag_reference :
    Option.Rel NamesOnly (linkWith none plainFlags [] [definingModule, referringModule])
        (linkWith none plainFlags.withN [] [definingModule, referringModule]) ∧
      Option.Rel NamesOnly
        (linkWith (some fun _ _ size => decide (size ≤ 4)) plainFlags []
          [definingModule, referringModule])
        (linkWith (some fun _ _ size => decide (size ≤ 4)) plainFlags.withN []
          [definingModule, referringModule]) := by
  constructor
  · apply (link_nflag none plainFlags [] [definingModule, referringModule] rfl).1
    intro scan plan first evaluated
    obtain rfl := Option.some.inj first
    obtain rfl := Option.some.inj evaluated
    intro s
    cases s <;> rfl
  · apply (link_nflag (some fun _ _ size => decide (size ≤ 4)) plainFlags []
      [definingModule, referringModule] rfl).1
    intro scan plan first evaluated
    obtain rfl := Option.some.inj first
    obtain rfl := Option.some.inj evaluated
    intro s
    cases s <;> rfl

/-- With `-b0:256` the reference to `a` is short of 256 in the run with `-n`. -/
theorem link_nflag_changes_contents :
    ∃ out out', linkWith none basedFlags [] [definingModule, referringModule] = some out ∧
      linkWith none basedFlags.withN [] [definingModule, referringModule] = some out' ∧
      ¬NamesOnly out out' := by
  refine ⟨_, _, rfl, rfl, ?_⟩
  intro same
  have byte := (same.contents 0).2 5 (by decide)
  exact absurd byte (by decide)

end AckFormal.Led
