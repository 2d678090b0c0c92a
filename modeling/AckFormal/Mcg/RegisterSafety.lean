import AckFormal.Mcg.RegisterAllocator

/-!
# What register selection keeps apart

The first three loops of `select_registers` change the two assignments only by
a few kinds of edits; each kind keeps distinct virtual registers in registers
that do not alias.  What the last loop
does is in `RegisterRehoming`.
-/

namespace AckFormal.Mcg.RegisterSafety

open AckFormal.Data RegisterAllocator
open List (forall_mem_append forall_mem_singleton mem_append_left mem_cons_self mem_singleton)

/-- The heap of registers: every register is one of its own aliases, aliasing
is symmetric, and everything that is referred to has been allocated. -/
structure RegisterFile (st : State) : Prop where
  self : ∀ h < st.next, h ∈ (st.hreg h).aliases
  symmetric : ∀ h < st.next, ∀ k ∈ (st.hreg h).aliases, k < st.next ∧ h ∈ (st.hreg k).aliases
  hregs : ∀ h ∈ st.hregs, h < st.next
  slots : ∀ v s, st.slot v = some s → s < st.next
  groups : ∀ g s, st.groupSlot g = some s → s < st.next

/-- The parts of the state that the first three loops leave alone. -/
structure SameHeap (st st' : State) : Prop where
  hreg : st'.hreg = st.hreg
  next : st'.next = st.next
  hregs : st'.hregs = st.hregs
  slot : st'.slot = st.slot
  groupSlot : st'.groupSlot = st.groupSlot

theorem RegisterFile.of_sameHeap {st st' : State} (file : RegisterFile st)
    (same : SameHeap st st') : RegisterFile st' := by
  obtain ⟨self, symmetric, hregs, slots, groups⟩ := file
  constructor
  · rwa [same.hreg, same.next]
  · rwa [same.hreg, same.next]
  · rwa [same.hregs, same.next]
  · rwa [same.slot, same.next]
  · rwa [same.groupSlot, same.next]

def Apart (st : State) (regs : Assignment) : Prop :=
  regs.Pairwise fun p q => q.1 ∉ (st.hreg p.1).aliases

/-- No two distinct virtual registers occupy registers that alias. -/
def AliasFree (st : State) (regs : Assignment) : Prop :=
  ∀ p ∈ regs, ∀ q ∈ regs, q.1 ∈ (st.hreg p.1).aliases → p.2 = q.2

variable (vregs : Vregs) (hop : Hop)

/-! ## Edits -/

inductive Edit : State → State → Prop where
  | through {st : State} {h : Hreg} {v : Vreg} (member : v ∈ hop.throughs) (bound : h < st.next)
      (allocatable : allocatableThrough vregs hop st h v = true) :
      Edit st { st with ins := st.ins ++ [(h, v)], outs := st.outs ++ [(h, v)] }
  | withdraw {st : State} (h : Hreg) (v : Vreg) :
      Edit st
        { st with
          evicted := Pmap.put st.evicted v h
          ins := Pmap.remove st.ins h v
          outs := Pmap.remove st.outs h v }
  | move {st : State} (src : Hreg) {h : Hreg} {v : Vreg} (member : v ∈ hop.throughs)
      (read : v ∈ hop.ins) (bound : h < st.next)
      (allocatable : allocatableThrough vregs hop st h v = true) :
      Edit st
        { st with
          ins := Pmap.remove st.ins src v ++ [(h, v)]
          outs := Pmap.remove st.outs src v ++ [(h, v)] }
  | input {st : State} {h : Hreg} {v : Vreg} (read : v ∈ hop.ins) (bound : h < st.next)
      (free : registerUsed st st.ins h = false) :
      Edit st { st with ins := st.ins ++ [(h, v)] }
  | dropInput {st : State} (h : Hreg) {v : Vreg} (local_ : v ∉ hop.throughs) :
      Edit st { st with ins := Pmap.remove st.ins h v }
  | output {st : State} {h : Hreg} {v : Vreg} (written : v ∈ hop.outs) (bound : h < st.next)
      (free : registerUsed st st.outs h = false) :
      Edit st { st with outs := st.outs ++ [(h, v)] }
  | tied {st : State} {h : Hreg} {v e : Vreg} (written : v ∈ hop.outs) (read : e ∈ hop.ins)
      (bound : h < st.next) (freeIn : registerUsed st st.ins h = false)
      (freeOut : registerUsed st st.outs h = false) :
      Edit st { st with outs := st.outs ++ [(h, v)], ins := st.ins ++ [(h, e)] }

inductive Edits : State → State → Prop where
  | refl (st : State) : Edits st st
  | step {st middle st' : State} (first : Edit vregs hop st middle) (rest : Edits middle st') :
      Edits st st'

variable {vregs hop}

theorem Edits.single {st st' : State} (edit : Edit vregs hop st st') : Edits vregs hop st st' :=
  .step edit (.refl st')

variable {st st' : State} {regs : Assignment} {h other : Hreg} {v : Vreg}

theorem Edits.trans {middle : State} (first : Edits vregs hop st middle)
    (second : Edits vregs hop middle st') : Edits vregs hop st st' := by
  induction first with
  | refl => exact second
  | step edit _ ih => exact .step edit (ih second)

theorem Edit.sameHeap (edit : Edit vregs hop st st') : SameHeap st st' := by
  cases edit <;> exact ⟨rfl, rfl, rfl, rfl, rfl⟩

theorem Edits.sameHeap (edits : Edits vregs hop st st') : SameHeap st st' := by
  induction edits with
  | refl => exact ⟨rfl, rfl, rfl, rfl, rfl⟩
  | step edit _ ih =>
    have first := edit.sameHeap
    exact ⟨ih.hreg.trans first.hreg, ih.next.trans first.next, ih.hregs.trans first.hregs,
      ih.slot.trans first.slot, ih.groupSlot.trans first.groupSlot⟩

/-! ## Free registers -/

theorem registerUsed_eq_false :
    registerUsed st regs h = false ↔ ∀ p ∈ regs, p.1 ∉ (st.hreg h).aliases := by
  unfold registerUsed
  rw [List.any_eq_false]
  constructor
  · intro unused p member inAliases
    apply unused p.1 inAliases
    rw [Pmap.findleft_isSome]
    exact ⟨p.2, member⟩
  · intro unused other inAliases found
    rw [Pmap.findleft_isSome] at found
    obtain ⟨v, member⟩ := found
    exact unused (other, v) member inAliases

/-- Where an assignment may place registers: in allocated ones, no two of which
alias. -/
structure Laid (st : State) (regs : Assignment) : Prop where
  apart : Apart st regs
  bounded : ∀ p ∈ regs, p.1 < st.next

theorem Laid.of_sameHeap (laid : Laid st regs) (same : SameHeap st st') : Laid st' regs := by
  obtain ⟨apart, bounded⟩ := laid
  constructor
  · unfold Apart
    rwa [same.hreg]
  · rwa [same.next]

theorem Laid.sublist {shorter : Assignment} (laid : Laid st regs) (sub : shorter.Sublist regs) :
    Laid st shorter := by
  constructor
  · exact List.Pairwise.sublist sub laid.apart
  · intro p member
    exact laid.bounded p (sub.subset member)

theorem Laid.append (file : RegisterFile st) (laid : Laid st regs) (bound : h < st.next)
    (free : registerUsed st regs h = false) : Laid st (regs ++ [(h, v)]) := by
  rw [registerUsed_eq_false] at free
  constructor
  · refine List.pairwise_append.mpr ⟨laid.apart, List.pairwise_singleton _ _, ?_⟩
    intro p member q isNew inAliases
    rw [mem_singleton.mp isNew] at inAliases
    apply free p member
    exact (file.symmetric p.1 (laid.bounded p member) h inAliases).2
  · intro p member
    cases List.mem_append.mp member with
    | inl old => exact laid.bounded p old
    | inr isNew =>
      rw [mem_singleton.mp isNew]
      exact bound

theorem Laid.nodup (file : RegisterFile st) (laid : Laid st regs) : (regs.map Prod.fst).Nodup := by
  rw [List.Nodup, List.pairwise_map]
  refine List.Pairwise.imp_of_mem ?_ laid.apart
  intro p q memberP _ notAliased same
  apply notAliased
  rw [← same]
  exact file.self p.1 (laid.bounded p memberP)

theorem not_mem_of_free (file : RegisterFile st) (bound : h < st.next)
    (free : registerUsed st regs h = false) (v : Vreg) : (h, v) ∉ regs := by
  intro member
  exact registerUsed_eq_false.mp free (h, v) member (file.self h bound)

/-! ## The invariant of the first three loops -/

/-- A register that the instruction corrupts holds no through afterwards, and
before only a copy of one that the instruction reads. -/
structure Uncorrupted (hop : Hop) (st : State) : Prop where
  outs : ∀ p ∈ st.outs, p.2 ∈ hop.throughs → corrupted hop st p.1 = false
  ins : ∀ p ∈ st.ins, p.2 ∈ hop.throughs → p.2 ∉ hop.ins → corrupted hop st p.1 = false

structure Separated (hop : Hop) (st : State) : Prop where
  file : RegisterFile st
  ins : Laid st st.ins
  outs : Laid st st.outs
  uncorrupted : Uncorrupted hop st

theorem allocatableThrough_iff :
    allocatableThrough vregs hop st h v = true ↔
      registerUsed st st.ins h = false ∧ registerUsed st st.outs h = false ∧
        typeMatches vregs st h v = true ∧ corrupted hop st h = false := by
  simp only [allocatableThrough, allocatableStackableInput, allocatableStackableOutput,
    Bool.and_eq_true, Bool.not_eq_true']
  grind

theorem remove_sublist (regs : Assignment) (h : Hreg) (v : Vreg) :
    (Pmap.remove regs h v).Sublist regs :=
  List.erase_sublist

/-- No edit brings a through into a register that the hop corrupts. -/
theorem Uncorrupted.edit (safe : Uncorrupted hop st) (edit : Edit vregs hop st st') :
    Uncorrupted hop st' := by
  obtain ⟨outs, ins⟩ := safe
  cases edit with
  | @through h v _ _ allocatable =>
    have clean := (allocatableThrough_iff.mp allocatable).2.2.2
    constructor
    · simp only [forall_mem_append, forall_mem_singleton]
      exact ⟨outs, fun _ => clean⟩
    · simp only [forall_mem_append, forall_mem_singleton]
      exact ⟨ins, fun _ _ => clean⟩
  | withdraw h v =>
    constructor
    · intro p member
      exact outs p (Pmap.mem_of_mem_remove member)
    · intro p member
      exact ins p (Pmap.mem_of_mem_remove member)
  | @move src h v _ _ _ allocatable =>
    have clean := (allocatableThrough_iff.mp allocatable).2.2.2
    constructor
    · simp only [forall_mem_append, forall_mem_singleton]
      exact ⟨fun p member => outs p (Pmap.mem_of_mem_remove member), fun _ => clean⟩
    · simp only [forall_mem_append, forall_mem_singleton]
      exact ⟨fun p member => ins p (Pmap.mem_of_mem_remove member), fun _ _ => clean⟩
  | input read =>
    constructor
    · exact outs
    · simp only [forall_mem_append, forall_mem_singleton]
      exact ⟨ins, fun _ notRead => absurd read notRead⟩
  | dropInput =>
    constructor
    · exact outs
    · intro p member
      exact ins p (Pmap.mem_of_mem_remove member)
  | output written =>
    constructor
    · simp only [forall_mem_append, forall_mem_singleton]
      exact ⟨outs, fun through => absurd through (hop.fresh _ written)⟩
    · exact ins
  | tied written read =>
    constructor
    · simp only [forall_mem_append, forall_mem_singleton]
      exact ⟨outs, fun through => absurd through (hop.fresh _ written)⟩
    · simp only [forall_mem_append, forall_mem_singleton]
      exact ⟨ins, fun _ notRead => absurd read notRead⟩

theorem registerUsed_of_sublist {shorter : Assignment} (sub : shorter.Sublist regs)
    (free : registerUsed st regs h = false) : registerUsed st shorter h = false := by
  rw [registerUsed_eq_false] at free ⊢
  intro p member
  exact free p (sub.subset member)

theorem Edit.laid (edit : Edit vregs hop st st') (file : RegisterFile st) (ins : Laid st st.ins)
    (outs : Laid st st.outs) : Laid st st'.ins ∧ Laid st st'.outs := by
  cases edit with
  | @through h v _ bound allocatable =>
    obtain ⟨freeIn, freeOut, -⟩ := allocatableThrough_iff.mp allocatable
    exact ⟨ins.append file bound freeIn, outs.append file bound freeOut⟩
  | withdraw h v =>
    exact ⟨ins.sublist (remove_sublist _ _ _), outs.sublist (remove_sublist _ _ _)⟩
  | @move src h v _ _ bound allocatable =>
    obtain ⟨freeIn, freeOut, -⟩ := allocatableThrough_iff.mp allocatable
    have subIn := remove_sublist st.ins src v
    have subOut := remove_sublist st.outs src v
    exact ⟨(ins.sublist subIn).append file bound (registerUsed_of_sublist subIn freeIn),
      (outs.sublist subOut).append file bound (registerUsed_of_sublist subOut freeOut)⟩
  | input _ bound free => exact ⟨ins.append file bound free, outs⟩
  | dropInput => exact ⟨ins.sublist (remove_sublist _ _ _), outs⟩
  | output _ bound free => exact ⟨ins, outs.append file bound free⟩
  | tied _ _ bound freeIn freeOut =>
    exact ⟨ins.append file bound freeIn, outs.append file bound freeOut⟩

theorem Separated.edit (separated : Separated hop st) (edit : Edit vregs hop st st') :
    Separated hop st' := by
  have same := edit.sameHeap
  obtain ⟨ins, outs⟩ := edit.laid separated.file separated.ins separated.outs
  constructor
  · exact separated.file.of_sameHeap same
  · exact ins.of_sameHeap same
  · exact outs.of_sameHeap same
  · exact separated.uncorrupted.edit edit

theorem Separated.edits (separated : Separated hop st) (edits : Edits vregs hop st st') :
    Separated hop st' := by
  induction edits with
  | refl => exact separated
  | step edit _ ih => exact ih (separated.edit edit)

/-- A through has been evicted, or sits in one register before and after. -/
def Carried (st : State) (v : Vreg) : Prop :=
  (∃ h, (v, h) ∈ st.evicted) ∨ ∃ h, (h, v) ∈ st.ins ∧ (h, v) ∈ st.outs

theorem Carried.append (carried : Carried st v) (ins outs : Assignment) :
    Carried { st with ins := st.ins ++ ins, outs := st.outs ++ outs } v := by
  cases carried with
  | inl evicted => exact Or.inl evicted
  | inr placed =>
    obtain ⟨h, memberIn, memberOut⟩ := placed
    exact Or.inr ⟨h, mem_append_left _ memberIn, mem_append_left _ memberOut⟩

/-- A through stays in both maps or among the evicted ones. -/
theorem Carried.edit {w : Vreg} (through : w ∈ hop.throughs) (carried : Carried st w)
    (edit : Edit vregs hop st st') : Carried st' w := by
  cases edit with
  | through => exact carried.append _ _
  | withdraw h v =>
    cases carried with
    | inl evicted =>
      obtain ⟨k, member⟩ := evicted
      exact Or.inl (Pmap.exists_mem_put member v h)
    | inr placed =>
      obtain ⟨k, memberIn, memberOut⟩ := placed
      rcases eq_or_ne (k, w) (h, v) with same | differs
      · cases same
        exact Or.inl ⟨_, Pmap.mem_put_self _ _ _⟩
      · exact Or.inr ⟨k, (Pmap.mem_remove_of_ne differs).mpr memberIn,
          (Pmap.mem_remove_of_ne differs).mpr memberOut⟩
  | @move src h v =>
    cases carried with
    | inl evicted => exact Or.inl evicted
    | inr placed =>
      obtain ⟨k, memberIn, memberOut⟩ := placed
      rcases eq_or_ne w v with rfl | differs
      · exact Or.inr ⟨h, List.mem_append_right _ (List.mem_singleton_self _),
          List.mem_append_right _ (List.mem_singleton_self _)⟩
      · have other : (k, w) ≠ (src, v) := fun same => differs (congrArg Prod.snd same)
        exact Or.inr ⟨k, mem_append_left _ ((Pmap.mem_remove_of_ne other).mpr memberIn),
          mem_append_left _ ((Pmap.mem_remove_of_ne other).mpr memberOut)⟩
  | input => simpa using carried.append _ []
  | @dropInput h v notThrough =>
    cases carried with
    | inl evicted => exact Or.inl evicted
    | inr placed =>
      obtain ⟨k, memberIn, memberOut⟩ := placed
      have other : (k, w) ≠ (h, v) := by
        intro same
        cases same
        exact notThrough through
      exact Or.inr ⟨k, (Pmap.mem_remove_of_ne other).mpr memberIn, memberOut⟩
  | output => simpa using carried.append [] _
  | tied => exact carried.append _ _

theorem Carried.edits {w : Vreg} (through : w ∈ hop.throughs) (carried : Carried st w)
    (edits : Edits vregs hop st st') : Carried st' w := by
  induction edits with
  | refl => exact carried
  | step edit _ ih => exact ih (carried.edit through edit)

/-! ## Eviction -/

/-- What evicting from a list of aliases leaves in a map. -/
def Vacated (aliases : List Hreg) (regs regs' : Assignment) : Prop :=
  regs'.Sublist regs ∧ ∀ k, Pmap.findleft regs' k =
    if k ∈ aliases then none else Pmap.findleft regs k

theorem vacated_single (unique : (regs.map Prod.fst).Nodup)
    (found : Pmap.findleft regs other = some v) :
    Vacated [other] regs (Pmap.remove regs other v) := by
  constructor
  · exact remove_sublist regs other v
  · intro k
    simp only [mem_singleton]
    split
    next same =>
      rw [same]
      exact Pmap.findleft_remove_self unique found
    next differs => exact Pmap.findleft_remove_of_ne differs

theorem Vacated.cons {regs middle regs' : Assignment} {other : Hreg} {aliases : List Hreg}
    (first : Vacated [other] regs middle) (rest : Vacated aliases middle regs') :
    Vacated (other :: aliases) regs regs' := by
  constructor
  · exact rest.1.trans first.1
  · intro k
    rw [rest.2, first.2]
    grind

theorem vacated_none (absent : Pmap.findleft regs other = none) : Vacated [other] regs regs := by
  constructor
  · exact List.Sublist.refl regs
  · intro k
    simp only [mem_singleton]
    split
    next same => rw [same, absent]
    next => rfl

variable (vregs hop) in
theorem evictAlias_spec (uniqueIns : (st.ins.map Prod.fst).Nodup)
    (uniqueOuts : (st.outs.map Prod.fst).Nodup)
    (same : Pmap.findleft st.ins other = Pmap.findleft st.outs other) :
    Edits vregs hop st (evictAlias st other) ∧ Vacated [other] st.ins (evictAlias st other).ins ∧
      Vacated [other] st.outs (evictAlias st other).outs := by
  unfold evictAlias
  split
  next absent =>
    rw [absent] at same
    exact ⟨.refl st, vacated_none absent, vacated_none same.symm⟩
  next candidate found =>
    rw [found] at same
    rw [if_pos same.symm]
    exact ⟨.single (.withdraw other candidate), vacated_single uniqueIns found,
      vacated_single uniqueOuts same.symm⟩

variable (vregs hop) in
theorem evictAliases_spec (aliases : List Hreg) (st : State)
    (uniqueIns : (st.ins.map Prod.fst).Nodup) (uniqueOuts : (st.outs.map Prod.fst).Nodup)
    (same : ∀ k ∈ aliases, Pmap.findleft st.ins k = Pmap.findleft st.outs k) :
    Edits vregs hop st (aliases.foldl evictAlias st) ∧
      Vacated aliases st.ins (aliases.foldl evictAlias st).ins ∧
      Vacated aliases st.outs (aliases.foldl evictAlias st).outs := by
  induction aliases generalizing st with
  | nil =>
    have unchanged (regs : Assignment) : Vacated [] regs regs :=
      ⟨List.Sublist.refl regs, fun _ => by simp⟩
    exact ⟨.refl st, unchanged st.ins, unchanged st.outs⟩
  | cons other aliases ih =>
    obtain ⟨edits, ins, outs⟩ := evictAlias_spec vregs hop uniqueIns uniqueOuts
      (same other mem_cons_self)
    have stillSame : ∀ k ∈ aliases, Pmap.findleft (evictAlias st other).ins k =
        Pmap.findleft (evictAlias st other).outs k := by
      intro k member
      rw [ins.2, outs.2, same k (List.mem_cons_of_mem other member)]
    obtain ⟨restEdits, restIns, restOuts⟩ := ih (evictAlias st other)
      (uniqueIns.sublist (ins.1.map _)) (uniqueOuts.sublist (outs.1.map _)) stillSame
    exact ⟨edits.trans restEdits, ins.cons restIns, outs.cons restOuts⟩

theorem Vacated.free {st : State} {h : Hreg} {regs regs' : Assignment}
    (vacated : Vacated (st.hreg h).aliases regs regs') : registerUsed st regs' h = false := by
  unfold registerUsed
  rw [List.any_eq_false]
  intro other member
  rw [vacated.2 other, if_pos member]
  simp

/-- The register that `evict` returns is free on both sides. -/
theorem evict_spec (separated : Separated hop st) (evicted : evict vregs hop st v = some (h, st')) :
    Edits vregs hop st st' ∧ h < st'.next ∧ registerUsed st' st'.ins h = false ∧
      registerUsed st' st'.outs h = false := by
  unfold evict at evicted
  split at evicted
  next found search =>
    cases evicted
    have chosen := List.find?_some search
    simp only [Bool.and_eq_true] at chosen
    have same : ∀ k ∈ (st.hreg h).aliases, Pmap.findleft st.ins k = Pmap.findleft st.outs k := by
      intro k member
      exact beq_iff_eq.mp (List.all_eq_true.mp chosen.2 k member)
    obtain ⟨edits, ins, outs⟩ := evictAliases_spec vregs hop (st.hreg h).aliases st
      (separated.ins.nodup separated.file) (separated.outs.nodup separated.file) same
    have heap := edits.sameHeap
    refine ⟨edits, ?_, ?_, ?_⟩
    · rw [heap.next]
      exact separated.file.hregs h (List.mem_of_find?_eq_some search)
    · exact Vacated.free (by rw [heap.hreg]; exact ins)
    · exact Vacated.free (by rw [heap.hreg]; exact outs)
  next => cases evicted

/-! ## The first three loops are edits -/

theorem addThroughRegister_edits {hint : Option Hreg} (separated : Separated hop st)
    (through : v ∈ hop.throughs) (bound : ∀ h ∈ hint, h < st.next)
    (added : addThroughRegister vregs hop st v hint = some st') :
    Edits vregs hop st st' ∧ Carried st' v := by
  cases hint with
  | none => cases added
  | some h =>
    have allocated := bound h rfl
    rw [addThroughRegister] at added
    split at added
    next honoured =>
      cases added
      refine ⟨?_, Or.inr ⟨h, Pmap.mem_put_self _ _ _, Pmap.mem_put_self _ _ _⟩⟩
      cases honoured with
      | inl allocatable =>
        obtain ⟨freeIn, freeOut, -⟩ := allocatableThrough_iff.mp allocatable
        have absent {regs : Assignment} (free : registerUsed st regs h = false) :
            Pmap.findleft regs h = none :=
          Pmap.findleft_eq_none.mpr (not_mem_of_free separated.file allocated free)
        rw [Pmap.put_of_none v (absent freeIn), Pmap.put_of_none v (absent freeOut)]
        exact .single (.through through allocated allocatable)
      | inr there =>
        rw [Pmap.put_of_some there.1, Pmap.put_of_some there.2]
        exact .refl st
    next =>
      cases added
      exact ⟨.single (.withdraw h v), Or.inl ⟨h, Pmap.mem_put_self _ _ _⟩⟩

theorem edit_input (file : RegisterFile st) (read : v ∈ hop.ins) (bound : h < st.next)
    (free : registerUsed st st.ins h = false) :
    Edit vregs hop st { st with ins := Pmap.add st.ins h v } := by
  rw [Pmap.add_of_not_mem (not_mem_of_free file bound free v)]
  exact .input read bound free

theorem edit_output (file : RegisterFile st) (written : v ∈ hop.outs) (bound : h < st.next)
    (free : registerUsed st st.outs h = false) :
    Edit vregs hop st { st with outs := Pmap.add st.outs h v } := by
  rw [Pmap.add_of_not_mem (not_mem_of_free file bound free v)]
  exact .output written bound free

theorem edit_tied {e : Vreg} (file : RegisterFile st) (written : v ∈ hop.outs) (read : e ∈ hop.ins)
    (bound : h < st.next) (freeIn : registerUsed st st.ins h = false)
    (freeOut : registerUsed st st.outs h = false) : Edit vregs hop st (placeTied st v e h) := by
  unfold placeTied
  rw [Pmap.add_of_not_mem (not_mem_of_free file bound freeIn e),
    Pmap.add_of_not_mem (not_mem_of_free file bound freeOut v)]
  exact .tied written read bound freeIn freeOut

theorem allocatableInput_free (allocatable : allocatableInput vregs hop st h v = true) :
    registerUsed st st.ins h = false := by
  simp only [allocatableInput, allocatableStackableInput, Bool.and_eq_true,
    Bool.not_eq_true'] at allocatable
  exact allocatable.1.1.1

theorem allocatableOutput_free (allocatable : allocatableOutput vregs hop st h v = true) :
    registerUsed st st.outs h = false := by
  simp only [allocatableOutput, allocatableStackableOutput, Bool.and_eq_true,
    Bool.not_eq_true'] at allocatable
  exact allocatable.1.1.1

theorem findInputReg_some (found : findInputReg vregs hop st v = some h) :
    h ∈ st.hregs ∧ allocatableInput vregs hop st h v = true :=
  ⟨List.mem_of_find?_eq_some found, List.find?_some (p := (allocatableInput vregs hop st · v)) found⟩

theorem findOutputReg_some (found : findOutputReg vregs hop st v = some h) :
    h ∈ st.hregs ∧ allocatableOutput vregs hop st h v = true :=
  ⟨List.mem_of_find?_eq_some found,
    List.find?_some (p := (allocatableOutput vregs hop st · v)) found⟩

theorem findThroughReg_some (found : findThroughReg vregs hop st v = some h) :
    h ∈ st.hregs ∧ allocatableThrough vregs hop st h v = true :=
  ⟨List.mem_of_find?_eq_some found,
    List.find?_some (p := (allocatableThrough vregs hop st · v)) found⟩

theorem placeInput_edits (separated : Separated hop st) (read : v ∈ hop.ins)
    (placed : placeInput vregs hop st v = some st') : Edits vregs hop st st' := by
  unfold placeInput at placed
  split at placed
  next h search =>
    cases placed
    obtain ⟨member, allocatable⟩ := findInputReg_some search
    exact .single (edit_input separated.file read (separated.file.hregs h member)
      (allocatableInput_free allocatable))
  next =>
    split at placed
    next h middle evicted =>
      cases placed
      obtain ⟨edits, bound, freeIn, -⟩ := evict_spec separated evicted
      have file := (separated.edits edits).file
      exact edits.trans (.single (edit_input file read bound freeIn))
    next => cases placed

/-- Choosing an input register is a run of edits, whatever the hint. -/
theorem addInputRegister_edits {hint : Option Hreg} (separated : Separated hop st)
    (read : v ∈ hop.ins) (bound : ∀ h ∈ hint, h < st.next)
    (added : addInputRegister vregs hop st v hint = some st') : Edits vregs hop st st' := by
  cases hint with
  | none => exact placeInput_edits separated read added
  | some h =>
    have allocated := bound h rfl
    rw [addInputRegister] at added
    split at added
    next => exact placeInput_edits separated read added
    next =>
      split at added
      next =>
        split at added
        next through =>
          split at added
          next new search =>
            cases added
            obtain ⟨member, allocatable⟩ := findThroughReg_some search
            have newBound := separated.file.hregs new member
            obtain ⟨freeIn, freeOut, -⟩ := allocatableThrough_iff.mp allocatable
            have absent {regs : Assignment} (free : registerUsed st regs new = false) :
                (new, v) ∉ Pmap.remove regs h v := by
              intro member
              exact not_mem_of_free separated.file newBound free v (Pmap.mem_of_mem_remove member)
            rw [Pmap.add_of_not_mem (absent freeIn), Pmap.add_of_not_mem (absent freeOut)]
            exact .single (.move h through read newBound allocatable)
          next => cases added
        next notThrough =>
          have dropped : Edit vregs hop st { st with ins := Pmap.remove st.ins h v } :=
            .dropInput h notThrough
          exact .step dropped (placeInput_edits (separated.edit dropped) read added)
      next =>
        split at added
        next honoured =>
          cases added
          cases honoured with
          | inl there =>
            rw [Pmap.add_of_mem (Pmap.mem_of_findleft there)]
            exact .refl st
          | inr allocatable =>
            exact .single (edit_input separated.file read allocated
              (allocatableInput_free allocatable))
        next => exact placeInput_edits separated read added

/-- Choosing an output register is a run of edits. -/
theorem addOutputRegister_edits (separated : Separated hop st) (written : v ∈ hop.outs)
    (added : addOutputRegister vregs hop st v = some st') : Edits vregs hop st st' := by
  unfold addOutputRegister at added
  split at added
  next => cases added
  next c constraint =>
    split at added
    next e equals =>
      have read : e ∈ hop.ins :=
        hop.tied (v, c) (Pmap.mem_of_findleft constraint) e equals
      split at added
      next => cases added
      next h found =>
        split at added
        next allocatable =>
          cases added
          have bound := separated.ins.bounded (h, e) (Pmap.mem_of_findright found)
          exact .single (edit_output separated.file written bound
            (allocatableOutput_free allocatable))
        next =>
          split at added
          next new search =>
            cases added
            obtain ⟨member, allocatable⟩ := findThroughReg_some search
            obtain ⟨freeIn, freeOut, -⟩ := allocatableThrough_iff.mp allocatable
            exact .single (edit_tied separated.file written read (separated.file.hregs new member)
              freeIn freeOut)
          next =>
            split at added
            next new middle evicted =>
              cases added
              obtain ⟨edits, bound, freeIn, freeOut⟩ := evict_spec separated evicted
              have file := (separated.edits edits).file
              exact edits.trans (.single (edit_tied file written read bound freeIn freeOut))
            next => cases added
    next =>
      split at added
      next h search =>
        cases added
        obtain ⟨member, allocatable⟩ := findOutputReg_some search
        exact .single (edit_output separated.file written (separated.file.hregs h member)
          (allocatableOutput_free allocatable))
      next =>
        split at added
        next h middle evicted =>
          cases added
          obtain ⟨edits, bound, -, freeOut⟩ := evict_spec separated evicted
          have file := (separated.edits edits).file
          exact edits.trans (.single (edit_output file written bound freeOut))
        next => cases added

/-- A loop whose body only makes edits; `next` bounds the hints that the body
gets. -/
theorem overVregs_edits {body : State → Vreg → Option State} {next : Hreg} {list : List Vreg}
    (edited : ∀ v ∈ list, ∀ st st', st.next = next → Separated hop st → body st v = some st' →
      Edits vregs hop st st') (same : st.next = next) (separated : Separated hop st)
    (ran : overVregs body list st = some st') : Edits vregs hop st st' := by
  induction list generalizing st with
  | nil =>
    cases ran
    exact .refl _
  | cons v rest ih =>
    rw [overVregs] at ran
    split at ran
    next middle did =>
      have first := edited v mem_cons_self st middle same separated did
      exact first.trans (ih (fun w member => edited w (List.mem_cons_of_mem v member))
        (first.sameHeap.next.trans same) (separated.edits first) ran)
    next => cases ran

variable {old : Assignment}

theorem findright_bound {next : Hreg} (bounded : ∀ p ∈ old, p.1 < next) (v : Vreg) :
    ∀ h ∈ Pmap.findright old v, h < next := by
  intro h found
  exact bounded (h, v) (Pmap.mem_of_findright found)

theorem throughs_placed {list : List Vreg} (throughs : ∀ v ∈ list, v ∈ hop.throughs)
    (bounded : ∀ p ∈ old, p.1 < st.next) (separated : Separated hop st)
    (ran : overVregs (fun st v => addThroughRegister vregs hop st v (Pmap.findright old v))
      list st = some st') : Edits vregs hop st st' ∧ ∀ v ∈ list, Carried st' v := by
  induction list generalizing st with
  | nil =>
    cases ran
    exact ⟨.refl _, fun v member => by cases member⟩
  | cons v rest ih =>
    rw [overVregs] at ran
    split at ran
    next middle did =>
      have through := throughs v mem_cons_self
      obtain ⟨first, carried⟩ := addThroughRegister_edits separated through
        (findright_bound bounded v) did
      obtain ⟨edits, allCarried⟩ := ih (fun w member => throughs w (List.mem_cons_of_mem v member))
        (by rwa [first.sameHeap.next]) (separated.edits first) ran
      refine ⟨first.trans edits, ?_⟩
      intro w member
      cases member with
      | head => exact carried.edits through edits
      | tail _ member => exact allCarried w member
    next => cases ran

theorem separated_empty (file : RegisterFile st) :
    Separated hop { st with ins := [], outs := [], evicted := [] } := by
  have none : ∀ p ∈ ([] : Assignment), False := fun p member => by cases member
  constructor
  · exact file.of_sameHeap ⟨rfl, rfl, rfl, rfl, rfl⟩
  · exact ⟨List.Pairwise.nil, fun p member => (none p member).elim⟩
  · exact ⟨List.Pairwise.nil, fun p member => (none p member).elim⟩
  · exact ⟨fun p member => (none p member).elim, fun p member => (none p member).elim⟩

/-- After the first three loops nothing overlaps, and every through is in a
register or waits to be re-homed. -/
theorem placeOperands_spec (file : RegisterFile st) (bounded : ∀ p ∈ old, p.1 < st.next)
    (placed : placeOperands vregs hop old st = some st') :
    Separated hop st' ∧ ∀ v ∈ hop.throughs, Carried st' v := by
  have start : Separated hop { st with ins := [], outs := [], evicted := [] } :=
    separated_empty file
  unfold placeOperands at placed
  split at placed
  next => cases placed
  next first throughLoop =>
    split at placed
    next => cases placed
    next second inputLoop =>
      obtain ⟨throughEdits, carried⟩ := throughs_placed (fun _ member => member)
        (by exact bounded) start throughLoop
      have sameNext : first.next = st.next := throughEdits.sameHeap.next
      have afterThroughs := start.edits throughEdits
      have inputEdits : Edits vregs hop first second := by
        refine overVregs_edits ?_ sameNext afterThroughs inputLoop
        intro v member st₁ st₂ same separated added
        exact addInputRegister_edits separated member
          (by rw [same]; exact findright_bound bounded v) added
      have afterInputs := afterThroughs.edits inputEdits
      have outputEdits : Edits vregs hop second st' := by
        refine overVregs_edits ?_ rfl afterInputs placed
        intro v member st₁ st₂ _ separated added
        exact addOutputRegister_edits separated member added
      refine ⟨afterInputs.edits outputEdits, ?_⟩
      intro v member
      exact (carried v member).edits member (inputEdits.trans outputEdits)

end AckFormal.Mcg.RegisterSafety
