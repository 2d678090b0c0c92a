import AckFormal.Mcg.RegisterSafety

/-!
# Re-homing of evicted registers

The last loop of `select_registers` finds a register, or else a stack slot, for
every evicted virtual register.  A slot that was made for an earlier instruction
is used again without a look at what is in it now.
-/

namespace AckFormal.Mcg.RegisterRehoming

open AckFormal.Data RegisterAllocator RegisterSafety

section

variable {vregs : Vregs} {hop : Hop} {old : Assignment}

/-- The stack slot that `find_new_home_for_evicted_register` uses again. -/
def reusedSlot (vregs : Vregs) (st : State) (v : Vreg) : Option Hreg :=
  (st.slot v).or ((vregs.congruence v).bind st.groupSlot)

structure Vacant (hop : Hop) (st : State) (s : Hreg) (v : Vreg) : Prop where
  ins : ∀ p ∈ st.ins, p.1 ∈ (st.hreg s).aliases → p.2 = v
  outs : ∀ p ∈ st.outs, p.1 ∈ (st.hreg s).aliases → p.2 = v
  uncorrupted : v ∈ hop.throughs → corrupted hop st s = false

/-- One step of the last loop does no harm: it finds a free register, reuses a
slot that only this virtual register is in, or makes a new slot of a type that
the instruction does not corrupt. -/
def HomeClean (vregs : Vregs) (hop : Hop) (st : State) (v : Vreg) : Prop :=
  findHome vregs hop st v = none →
    match reusedSlot vregs st v with
    | some s => Vacant hop st s v
    | none => v ∈ hop.throughs → meets (vregs.type v) hop.corrupts = false

def HomesClean (vregs : Vregs) (hop : Hop) : List (Vreg × Hreg) → State → Prop
  | [], _ => True
  | (v, _) :: rest, st =>
    HomeClean vregs hop st v ∧ HomesClean vregs hop rest (findNewHome vregs hop st v)

/-- Nothing overlaps, and no corrupted register carries a through. -/
structure Disjoint (hop : Hop) (st : State) : Prop where
  ins : AliasFree st st.ins
  outs : AliasFree st st.outs
  uncorrupted : Uncorrupted hop st

structure Allocated (st : State) : Prop where
  file : RegisterFile st
  ins : ∀ p ∈ st.ins, p.1 < st.next
  outs : ∀ p ∈ st.outs, p.1 < st.next

variable {st st' : State} {regs : Assignment} {s h : Hreg} {v : Vreg}

theorem aliasFree_add (file : RegisterFile st) (bounded : ∀ p ∈ regs, p.1 < st.next) :
    AliasFree st (Pmap.add regs s v) ↔
      AliasFree st regs ∧ ∀ p ∈ regs, p.1 ∈ (st.hreg s).aliases → p.2 = v := by
  constructor
  · intro aliasFree
    constructor
    · intro p memberP q memberQ
      exact aliasFree p (Pmap.mem_add.mpr (Or.inl memberP)) q (Pmap.mem_add.mpr (Or.inl memberQ))
    · intro p member inAliases
      exact (aliasFree (s, v) (Pmap.mem_add.mpr (Or.inr rfl)) p
        (Pmap.mem_add.mpr (Or.inl member)) inAliases).symm
  · intro ⟨aliasFree, vacant⟩ p memberP q memberQ inAliases
    cases Pmap.mem_add.mp memberP with
    | inl oldP =>
      cases Pmap.mem_add.mp memberQ with
      | inl oldQ => exact aliasFree p oldP q oldQ inAliases
      | inr newQ =>
        cases newQ
        exact vacant p oldP (file.symmetric p.1 (bounded p oldP) s inAliases).2
    | inr newP =>
      cases newP
      cases Pmap.mem_add.mp memberQ with
      | inl oldQ => exact (vacant q oldQ inAliases).symm
      | inr newQ =>
        cases newQ
        rfl

theorem uncorrupted_settle :
    Uncorrupted hop (settle st v s) ↔
      Uncorrupted hop st ∧ (v ∈ hop.throughs → corrupted hop st s = false) := by
  constructor
  · intro ⟨outs, ins⟩
    refine ⟨⟨?_, ?_⟩, ?_⟩
    · intro p member
      exact outs p (Pmap.mem_add.mpr (Or.inl member))
    · intro p member
      exact ins p (Pmap.mem_add.mpr (Or.inl member))
    · exact outs (s, v) (Pmap.mem_add.mpr (Or.inr rfl))
  · intro ⟨⟨outs, ins⟩, clean⟩
    constructor
    · intro p member
      cases Pmap.mem_add.mp member with
      | inl member => exact outs p member
      | inr same => exact same ▸ clean
    · intro p member through notRead
      cases Pmap.mem_add.mp member with
      | inl member => exact ins p member through notRead
      | inr same =>
        subst same
        exact clean through

/-- Settling keeps everything disjoint exactly if the register was vacant. -/
theorem disjoint_settle (allocated : Allocated st) :
    Disjoint hop (settle st v s) ↔ Disjoint hop st ∧ Vacant hop st s v := by
  have insAdd := aliasFree_add allocated.file allocated.ins (s := s) (v := v)
  have outsAdd := aliasFree_add allocated.file allocated.outs (s := s) (v := v)
  constructor
  · intro ⟨ins, outs, uncorrupted⟩
    obtain ⟨insFree, insVacant⟩ := insAdd.mp ins
    obtain ⟨outsFree, outsVacant⟩ := outsAdd.mp outs
    obtain ⟨before, clean⟩ := uncorrupted_settle.mp uncorrupted
    exact ⟨⟨insFree, outsFree, before⟩, ⟨insVacant, outsVacant, clean⟩⟩
  · intro ⟨disjoint, vacant⟩
    exact ⟨insAdd.mpr ⟨disjoint.ins, vacant.ins⟩, outsAdd.mpr ⟨disjoint.outs, vacant.outs⟩,
      uncorrupted_settle.mpr ⟨disjoint.uncorrupted, vacant.uncorrupted⟩⟩

theorem allocated_settle (allocated : Allocated st) (v : Vreg) (bound : s < st.next) :
    Allocated (settle st v s) := by
  have added {regs : Assignment} (bounded : ∀ p ∈ regs, p.1 < st.next) :
      ∀ p ∈ Pmap.add regs s v, p.1 < st.next := by
    intro p member
    cases Pmap.mem_add.mp member with
    | inl member => exact bounded p member
    | inr same => exact same ▸ bound
  exact ⟨allocated.file.of_sameHeap ⟨rfl, rfl, rfl, rfl, rfl⟩, added allocated.ins,
    added allocated.outs⟩

structure Extends (st st' : State) : Prop where
  hreg : ∀ h < st.next, st'.hreg h = st.hreg h
  next : st.next ≤ st'.next
  ins : st'.ins = st.ins
  outs : st'.outs = st.outs

theorem allocated_extends (allocated : Allocated st) (file : RegisterFile st')
    (grown : Extends st st') : Allocated st' := by
  refine ⟨file, ?_, ?_⟩
  · rw [grown.ins]
    exact fun p member => Nat.lt_of_lt_of_le (allocated.ins p member) grown.next
  · rw [grown.outs]
    exact fun p member => Nat.lt_of_lt_of_le (allocated.outs p member) grown.next

theorem aliasFree_extends (bounded : ∀ p ∈ regs, p.1 < st.next) (grown : Extends st st') :
    AliasFree st' regs ↔ AliasFree st regs := by
  refine forall₂_congr fun p member => ?_
  rw [grown.hreg p.1 (bounded p member)]

theorem corrupted_extends (bound : h < st.next) (grown : Extends st st') :
    corrupted hop st' h = corrupted hop st h := by
  unfold corrupted
  rw [grown.hreg h bound]

/-- More registers in the heap change nothing for those that are in use. -/
theorem disjoint_extends (allocated : Allocated st) (grown : Extends st st') :
    Disjoint hop st' ↔ Disjoint hop st := by
  have uncorrupted : Uncorrupted hop st' ↔ Uncorrupted hop st := by
    constructor
    · intro ⟨outs, ins⟩
      rw [grown.ins] at ins
      rw [grown.outs] at outs
      constructor
      · intro p member
        rw [← corrupted_extends (allocated.outs p member) grown]
        exact outs p member
      · intro p member
        rw [← corrupted_extends (allocated.ins p member) grown]
        exact ins p member
    · intro ⟨outs, ins⟩
      constructor
      · rw [grown.outs]
        intro p member
        rw [corrupted_extends (allocated.outs p member) grown]
        exact outs p member
      · rw [grown.ins]
        intro p member
        rw [corrupted_extends (allocated.ins p member) grown]
        exact ins p member
  have ins := aliasFree_extends allocated.ins grown
  have outs := aliasFree_extends allocated.outs grown
  constructor
  · intro ⟨insFree, outsFree, safe⟩
    rw [grown.ins] at insFree
    rw [grown.outs] at outsFree
    exact ⟨ins.mp insFree, outs.mp outsFree, uncorrupted.mp safe⟩
  · intro ⟨insFree, outsFree, safe⟩
    refine ⟨?_, ?_, uncorrupted.mpr safe⟩
    · rw [grown.ins]
      exact ins.mpr insFree
    · rw [grown.outs]
      exact outs.mpr outsFree

/-! ### One step of the last loop -/

theorem registerFile_reused (file : RegisterFile st) (reused : reusedSlot vregs st v = some s) :
    s < st.next := by
  unfold reusedSlot at reused
  cases own : st.slot v with
  | some slot =>
    rw [own, Option.some_or, Option.some.injEq] at reused
    exact reused ▸ file.slots v slot own
  | none =>
    rw [own, Option.none_or] at reused
    obtain ⟨group, _, slot⟩ := Option.bind_eq_some_iff.mp reused
    exact file.groups group s slot

theorem registerFile_remember (file : RegisterFile st) (v : Vreg) (bound : s < st.next) :
    RegisterFile { st with slot := Function.update st.slot v (some s) } := by
  obtain ⟨self, symmetric, hregs, slots, groups⟩ := file
  refine ⟨self, symmetric, hregs, ?_, groups⟩
  intro w t slot
  simp only [Function.update_apply] at slot
  split at slot
  next => exact Option.some.inj slot ▸ bound
  next => exact slots w t slot

theorem registerFile_listed (file : RegisterFile st) (bound : s < st.next) :
    RegisterFile { st with hregs := st.hregs ++ [s] } := by
  obtain ⟨self, symmetric, hregs, slots, groups⟩ := file
  refine ⟨self, symmetric, ?_, slots, groups⟩
  simp only [List.forall_mem_append, List.forall_mem_singleton]
  exact ⟨hregs, bound⟩

def withSlot (st : State) (type : UInt32) : State :=
  { st with
    hreg := Function.update st.hreg st.next ⟨type, true, [st.next]⟩
    next := st.next + 1 }

theorem withSlot_hreg (type : UInt32) (bound : h < st.next) :
    (withSlot st type).hreg h = st.hreg h :=
  Function.update_of_ne (Nat.ne_of_lt bound) _ _

theorem withSlot_hreg_next (st : State) (type : UInt32) :
    (withSlot st type).hreg st.next = ⟨type, true, [st.next]⟩ :=
  Function.update_self _ _ _

theorem registerFile_withSlot (file : RegisterFile st) (type : UInt32) :
    RegisterFile (withSlot st type) := by
  have later {h : Hreg} (bound : h < st.next) : h < st.next + 1 := Nat.lt_succ_of_lt bound
  constructor
  · intro h bound
    cases Nat.lt_succ_iff_lt_or_eq.mp bound with
    | inl old =>
      rw [withSlot_hreg type old]
      exact file.self h old
    | inr isNew =>
      rw [isNew, withSlot_hreg_next]
      exact List.mem_singleton_self _
  · intro h bound k inAliases
    cases Nat.lt_succ_iff_lt_or_eq.mp bound with
    | inl old =>
      rw [withSlot_hreg type old] at inAliases
      obtain ⟨kBound, back⟩ := file.symmetric h old k inAliases
      rw [withSlot_hreg type kBound]
      exact ⟨later kBound, back⟩
    | inr isNew =>
      rw [isNew, withSlot_hreg_next] at inAliases
      rw [List.mem_singleton.mp inAliases, withSlot_hreg_next, isNew]
      exact ⟨Nat.lt_succ_self _, List.mem_singleton_self _⟩
  · exact fun h member => later (file.hregs h member)
  · exact fun v s slot => later (file.slots v s slot)
  · exact fun g s slot => later (file.groups g s slot)

theorem registerFile_rememberGroup (file : RegisterFile st) (group : Option Nat)
    (bound : s < st.next) :
    RegisterFile { st with
      groupSlot := match group with
        | some group => Function.update st.groupSlot group (some s)
        | none => st.groupSlot } := by
  obtain ⟨self, symmetric, hregs, slots, groups⟩ := file
  refine ⟨self, symmetric, hregs, slots, ?_⟩
  intro g t slot
  cases group with
  | none => exact groups g t slot
  | some group =>
    simp only [Function.update_apply] at slot
    split at slot
    next => exact Option.some.inj slot ▸ bound
    next => exact groups g t slot

variable (vregs) in
theorem slotFor_extends (st : State) (v : Vreg) : Extends st (slotFor vregs st v).2 := by
  unfold slotFor
  split
  next => exact ⟨fun _ _ => rfl, Nat.le_refl _, rfl, rfl⟩
  next =>
    split
    next => exact ⟨fun _ _ => rfl, Nat.le_refl _, rfl, rfl⟩
    next => exact ⟨fun _ old => withSlot_hreg (vregs.type v) old, Nat.le_succ _, rfl, rfl⟩

variable (vregs) in
theorem slotFor_spec (file : RegisterFile st) (v : Vreg) :
    RegisterFile (slotFor vregs st v).2 ∧
      (slotFor vregs st v).1 < (slotFor vregs st v).2.next ∧
      match reusedSlot vregs st v with
      | some s => (slotFor vregs st v).1 = s ∧ (slotFor vregs st v).2.hreg = st.hreg
      | none => (slotFor vregs st v).1 = st.next ∧
          (slotFor vregs st v).2.hreg st.next = ⟨vregs.type v, true, [st.next]⟩ := by
  cases own : st.slot v with
  | some s =>
    have reused : reusedSlot vregs st v = some s := by simp [reusedSlot, own]
    have same : slotFor vregs st v = (s, st) := by simp [slotFor, own]
    rw [same, reused]
    exact ⟨file, registerFile_reused file reused, rfl, rfl⟩
  | none =>
    have reused : reusedSlot vregs st v = (vregs.congruence v).bind st.groupSlot := by
      simp [reusedSlot, own]
    cases ofGroup : (vregs.congruence v).bind st.groupSlot with
    | some s =>
      rw [ofGroup] at reused
      have bound := registerFile_reused file reused
      have remembered : slotFor vregs st v =
          (s, { st with slot := Function.update st.slot v (some s) }) := by
        simp [slotFor, own, ofGroup]
      rw [remembered, reused]
      exact ⟨registerFile_remember file v bound, bound, rfl, rfl⟩
    | none =>
      rw [ofGroup] at reused
      rw [reused]
      simp only [slotFor, own, ofGroup]
      have bound : st.next < (withSlot st (vregs.type v)).next := Nat.lt_succ_self _
      have grown := registerFile_remember (registerFile_withSlot file (vregs.type v)) v bound
      exact ⟨registerFile_rememberGroup grown (vregs.congruence v) bound, Nat.lt_succ_self _,
        trivial, withSlot_hreg_next st (vregs.type v)⟩

theorem findHome_some (found : findHome vregs hop st v = some h) :
    h ∈ st.hregs ∧ allocatableThrough vregs hop st h v = true := by
  have chosen := List.find?_some (p := fun h => !(st.hreg h).isStacked &&
    typeMatches vregs st h v && allocatableThrough vregs hop st h v) found
  rw [Bool.and_eq_true] at chosen
  exact ⟨List.mem_of_find?_eq_some found, chosen.2⟩

theorem vacant_of_allocatable (allocatable : allocatableThrough vregs hop st h v = true) :
    Vacant hop st h v := by
  obtain ⟨freeIn, freeOut, -, clean⟩ := allocatableThrough_iff.mp allocatable
  constructor
  · intro p member inAliases
    exact absurd inAliases (registerUsed_eq_false.mp freeIn p member)
  · intro p member inAliases
    exact absurd inAliases (registerUsed_eq_false.mp freeOut p member)
  · exact fun _ => clean

theorem vacant_listed {hregs : List Hreg} :
    Vacant hop { st with hregs := hregs } s v ↔ Vacant hop st s v := by
  constructor
  · intro ⟨ins, outs, clean⟩
    exact ⟨ins, outs, clean⟩
  · intro ⟨ins, outs, clean⟩
    exact ⟨ins, outs, clean⟩

/-- In the slot chosen for `v`, vacancy is what `HomeClean` asks for. -/
theorem vacant_slotFor (allocated : Allocated st) (v : Vreg) :
    Vacant hop (slotFor vregs st v).2 (slotFor vregs st v).1 v ↔
      match reusedSlot vregs st v with
      | some s => Vacant hop st s v
      | none => v ∈ hop.throughs → meets (vregs.type v) hop.corrupts = false := by
  have grown := slotFor_extends vregs st v
  obtain ⟨-, -, chosen⟩ := slotFor_spec vregs allocated.file v
  cases reused : reusedSlot vregs st v with
  | some s =>
    rw [reused] at chosen
    obtain ⟨isSlot, sameHreg⟩ := chosen
    rw [isSlot]
    have sameCorrupted : corrupted hop (slotFor vregs st v).2 s = corrupted hop st s := by
      rw [corrupted, corrupted, sameHreg]
    constructor
    · intro ⟨ins, outs, clean⟩
      rw [grown.ins, sameHreg] at ins
      rw [grown.outs, sameHreg] at outs
      rw [sameCorrupted] at clean
      exact ⟨ins, outs, clean⟩
    · intro ⟨ins, outs, clean⟩
      rw [← grown.ins, ← sameHreg] at ins
      rw [← grown.outs, ← sameHreg] at outs
      rw [← sameCorrupted] at clean
      exact ⟨ins, outs, clean⟩
  | none =>
    rw [reused] at chosen
    obtain ⟨isSlot, isNew⟩ := chosen
    rw [isSlot]
    have newCorrupted : corrupted hop (slotFor vregs st v).2 st.next =
        meets (vregs.type v) hop.corrupts := by
      rw [corrupted, isNew]
    constructor
    · intro vacant
      exact newCorrupted ▸ vacant.uncorrupted
    · intro clean
      constructor
      · rw [grown.ins, isNew]
        intro p member inAliases
        exact absurd (List.mem_singleton.mp inAliases) (Nat.ne_of_lt (allocated.ins p member))
      · rw [grown.outs, isNew]
        intro p member inAliases
        exact absurd (List.mem_singleton.mp inAliases) (Nat.ne_of_lt (allocated.outs p member))
      · exact newCorrupted ▸ clean

/-- One step of the last loop keeps everything disjoint exactly if it is clean. -/
theorem findNewHome_disjoint (allocated : Allocated st) (v : Vreg) :
    Disjoint hop (findNewHome vregs hop st v) ↔ Disjoint hop st ∧ HomeClean vregs hop st v := by
  unfold findNewHome HomeClean
  cases found : findHome vregs hop st v with
  | some h =>
    have vacant := vacant_of_allocatable (findHome_some found).2
    simp only [disjoint_settle allocated, vacant, reduceCtorEq, false_implies]
  | none =>
    have grown := slotFor_extends vregs st v
    obtain ⟨file, bound, -⟩ := slotFor_spec vregs allocated.file v
    have listed : Extends st { (slotFor vregs st v).2 with
        hregs := (slotFor vregs st v).2.hregs ++ [(slotFor vregs st v).1] } :=
      ⟨grown.hreg, grown.next, grown.ins, grown.outs⟩
    have here := allocated_extends allocated (registerFile_listed file bound) listed
    rw [disjoint_settle here, disjoint_extends allocated listed, vacant_listed,
      vacant_slotFor allocated]
    simp only [forall_const]

theorem findNewHome_allocated (allocated : Allocated st) (v : Vreg) :
    Allocated (findNewHome vregs hop st v) := by
  unfold findNewHome
  split
  next h found =>
    exact allocated_settle allocated v (allocated.file.hregs h (findHome_some found).1)
  next =>
    have grown := slotFor_extends vregs st v
    obtain ⟨file, bound, -⟩ := slotFor_spec vregs allocated.file v
    exact allocated_settle (allocated_extends allocated (registerFile_listed file bound)
      ⟨grown.hreg, grown.next, grown.ins, grown.outs⟩) v bound

/-! ### The whole loop -/

variable (vregs hop) in
theorem rehome_disjoint (allocated : Allocated st) (list : List (Vreg × Hreg)) :
    Disjoint hop (rehome vregs hop list st) ↔ Disjoint hop st ∧ HomesClean vregs hop list st := by
  induction list generalizing st with
  | nil => simp only [rehome, HomesClean, and_true]
  | cons node rest ih =>
    obtain ⟨v, src⟩ := node
    rw [rehome, HomesClean, ih (findNewHome_allocated allocated v),
      findNewHome_disjoint allocated, and_assoc]

def Present (st : State) (v : Vreg) : Prop :=
  (∃ h, (h, v) ∈ st.ins) ∧ ∃ h, (h, v) ∈ st.outs

variable (vregs hop) in
theorem findNewHome_eq_settle (st : State) (v : Vreg) :
    ∃ s st', findNewHome vregs hop st v = settle st' v s ∧ Extends st st' := by
  unfold findNewHome
  split
  next h _ => exact ⟨h, st, rfl, fun _ _ => rfl, Nat.le_refl _, rfl, rfl⟩
  next =>
    have grown := slotFor_extends vregs st v
    exact ⟨_, _, rfl, grown.hreg, grown.next, grown.ins, grown.outs⟩

theorem findNewHome_present (st : State) (v w : Vreg) (here : w = v ∨ Present st w) :
    Present (findNewHome vregs hop st v) w := by
  obtain ⟨s, st', same, grown⟩ := findNewHome_eq_settle vregs hop st v
  rw [same]
  cases here with
  | inl isNew =>
    rw [isNew]
    exact ⟨⟨s, Pmap.mem_add.mpr (Or.inr rfl)⟩, ⟨s, Pmap.mem_add.mpr (Or.inr rfl)⟩⟩
  | inr present =>
    obtain ⟨⟨h, memberIn⟩, k, memberOut⟩ := present
    rw [← grown.ins] at memberIn
    rw [← grown.outs] at memberOut
    exact ⟨⟨h, Pmap.mem_add.mpr (Or.inl memberIn)⟩, ⟨k, Pmap.mem_add.mpr (Or.inl memberOut)⟩⟩

theorem rehome_present (list : List (Vreg × Hreg)) (st : State) (w : Vreg)
    (here : (∃ src, (w, src) ∈ list) ∨ Present st w) : Present (rehome vregs hop list st) w := by
  induction list generalizing st with
  | nil =>
    cases here with
    | inl listed =>
      obtain ⟨src, member⟩ := listed
      cases member
    | inr present => exact present
  | cons node rest ih =>
    obtain ⟨v, src⟩ := node
    apply ih
    cases here with
    | inl listed =>
      obtain ⟨other, member⟩ := listed
      cases member with
      | head => exact Or.inr (findNewHome_present st w w (Or.inl rfl))
      | tail _ member => exact Or.inl ⟨other, member⟩
    | inr present => exact Or.inr (findNewHome_present st v w (Or.inr present))

/-! ## Register selection -/

structure Selected (hop : Hop) (st : State) : Prop where
  disjoint : Disjoint hop st
  present : ∀ v ∈ hop.throughs, Present st v

theorem aliasFree_of_laid (file : RegisterFile st) (laid : Laid st regs) : AliasFree st regs := by
  have forwards : regs.Pairwise fun p q => q.1 ∈ (st.hreg p.1).aliases → p.2 = q.2 :=
    laid.apart.imp fun apart inAliases => absurd inAliases apart
  have backwards : regs.Pairwise fun p q => p.1 ∈ (st.hreg q.1).aliases → q.2 = p.2 := by
    refine laid.apart.imp_of_mem ?_
    intro p q _ memberQ apart inAliases
    exact absurd (file.symmetric q.1 (laid.bounded q memberQ) p.1 inAliases).2 apart
  intro p memberP q memberQ
  exact List.Pairwise.forall_of_forall_of_flip (fun _ _ _ => rfl) forwards backwards memberP memberQ

theorem present_of_carried (carried : Carried st v) :
    (∃ src, (v, src) ∈ st.evicted) ∨ Present st v := by
  cases carried with
  | inl evicted => exact Or.inl evicted
  | inr placed =>
    obtain ⟨h, memberIn, memberOut⟩ := placed
    exact Or.inr ⟨⟨h, memberIn⟩, ⟨h, memberOut⟩⟩

def RehomingClean (vregs : Vregs) (hop : Hop) (old : Assignment) (st : State) : Prop :=
  ∀ placed, placeOperands vregs hop old st = some placed →
    HomesClean vregs hop placed.evicted placed

/-- `select_registers` keeps virtual registers apart and carries the throughs
over the instruction exactly if no eviction reuses a slot that is taken. -/
theorem selectRegisters_selected_iff {st st' : State} (file : RegisterFile st)
    (bounded : ∀ p ∈ old, p.1 < st.next) (selected : selectRegisters vregs hop old st = some st') :
    Selected hop st' ↔ RehomingClean vregs hop old st := by
  unfold selectRegisters at selected
  split at selected
  next placed operands =>
    cases selected
    obtain ⟨separated, carried⟩ := placeOperands_spec file bounded operands
    have allocated : Allocated placed :=
      ⟨separated.file, separated.ins.bounded, separated.outs.bounded⟩
    have before : Disjoint hop placed :=
      ⟨aliasFree_of_laid separated.file separated.ins,
        aliasFree_of_laid separated.file separated.outs, separated.uncorrupted⟩
    have rehomed := rehome_disjoint vregs hop allocated placed.evicted
    constructor
    · intro good other otherOperands
      rw [operands] at otherOperands
      cases otherOperands
      exact (rehomed.mp good.disjoint).2
    · intro clean
      constructor
      · exact rehomed.mpr ⟨before, clean placed operands⟩
      · intro v through
        exact rehome_present placed.evicted placed v (present_of_carried (carried v through))
  next => cases selected

end

/-! ## Two throughs in one slot -/

/-- Two registers of attributes `int` (1) and `volatile` (2), no stack slots
yet. -/
def twoVolatiles : State where
  hreg h := ⟨3, false, [h]⟩
  next := 2
  hregs := [0, 1]
  slot _ := none
  groupSlot _ := none
  ins := []
  outs := []
  evicted := []

def groupedInts : Vregs := ⟨fun _ => 1, fun _ => some 0⟩

/-- A call: it has no operands, and values 1 and 2 live across it. -/
def callHop (corrupts : UInt32) : Hop where
  corrupts := corrupts
  constraints := []
  ins := []
  outs := []
  throughs := [1, 2]
  fresh := by simp
  tied := by simp

/-- Two values of one congruence group that live across a call end up in the
group's slot together. -/
theorem selectRegisters_congruent_throughs_collide :
    ∃ st', selectRegisters groupedInts (callHop 2) [(0, 1), (1, 2)]
        twoVolatiles = some st' ∧ st'.ins = [(2, 1), (2, 2)] ∧ ¬ Selected (callHop 2) st' := by
  refine ⟨_, rfl, rfl, ?_⟩
  intro selected
  have same := selected.disjoint.ins (2, 1) (by decide) (2, 2) (by decide) (by decide)
  cases same

end AckFormal.Mcg.RegisterRehoming
