import AckFormal.Ego.Cf
import AckFormal.Lib.Folds

/-!
# What is read from the bodies

After the first loop of the phase the tables hold, for each procedure, what its own
lines say.  Of a switch over one line a lemma says what it adds to one part of the
tables; the loops over the lines, the blocks and the units follow from it.
-/

namespace AckFormal.Ego.Cf

open Ego.Lines Lib
open Function (update update_of_ne update_self)

def storesIndirect : Instr → Bool
  | .opSil | .opStf | .opSti | .opSts | .opSar | .opBlm | .opBls => true
  | _ => false

def loadsIndirect : Instr → Bool
  | .opLil | .opLof | .opLoi | .opLos | .opLar | .opBlm | .opBls => true
  | _ => false

def ChangesExternal (o : Nat) (l : Line) : Prop :=
  (l.instr = .opSte ∨ l.instr = .opSde ∨ l.instr = .opIne ∨ l.instr = .opDee ∨
    l.instr = .opZre) ∧ l.operand = .opObject o

def UsesEnvironment (l : Line) : Prop :=
  l.instr = .opLxl ∨ l.instr = .opLxa ∨
    (l.instr = .opLor ∨ l.instr = .opStr) ∧ l.operand = .opShort 0

/-! ### One line -/

section

variable (t : Tables)
include t

@[simp]
theorem note_calling (p : Nat) (f : Info → Info) :
    (t.note p f).calling = t.calling := rfl

@[simp]
theorem note_lpiSet (p : Nat) (f : Info → Info) : (t.note p f).lpiSet = t.lpiSet := rfl

@[simp]
theorem note_caiSet (p : Nat) (f : Info → Info) : (t.note p f).caiSet = t.caiSet := rfl

@[simp]
theorem call_info (p q : Nat) : (t.call p q).info = t.info := rfl

@[simp]
theorem call_lpiSet (p q : Nat) : (t.call p q).lpiSet = t.lpiSet := rfl

@[simp]
theorem call_caiSet (p q : Nat) : (t.call p q).caiSet = t.caiSet := rfl

@[simp]
theorem address_calling (q : Nat) : (t.address q).calling = t.calling := rfl

@[simp]
theorem address_caiSet (q : Nat) : (t.address q).caiSet = t.caiSet := rfl

@[simp]
theorem address_lpiSet (q : Nat) : (t.address q).lpiSet = insert q t.lpiSet := rfl

@[simp]
theorem address_info (q : Nat) :
    (t.address q).info = (t.note q fun i => { i with lpi := true }).info := rfl

end

/-- Part of the information that an update of `p` does not touch is the same for every
procedure. -/
theorem note_same {β : Type*} (part : Info → β) {f : Info → Info}
    (same : ∀ i, part (f i) = part i) (t : Tables) (p r : Nat) :
    part ((t.note p f).info r) = part (t.info r) := by
  change part (update t.info p (f (t.info p)) r) = _
  by_cases here : r = p
  · rw [here, update_self, same]
  · rw [update_of_ne here]

theorem mem_call (t : Tables) (p q r x : Nat) :
    x ∈ (t.call p q).calling r ↔ x ∈ t.calling r ∨ r = p ∧ q = x := by
  change x ∈ update t.calling p (insert q (t.calling p)) r ↔ _
  by_cases here : r = p
  · rw [here, update_self, Finset.mem_insert]
    simp [or_comm, eq_comm]
  · rw [update_of_ne here]
    simp [here]

theorem note_flag {flag : Info → Bool} {f : Info → Info} (sets : ∀ i, flag (f i) = true)
    (t : Tables) (p r : Nat) :
    flag ((t.note p f).info r) = true ↔ flag (t.info r) = true ∨ r = p := by
  change flag (update t.info p (f (t.info p)) r) = true ↔ _
  by_cases here : r = p
  · rw [here, update_self, sets]
    simp
  · rw [update_of_ne here]
    simp [here]

theorem note_ext (t : Tables) (p r o x : Nat) :
    x ∈ ((t.note p fun i => { i with cExt := insert o i.cExt }).info r).cExt ↔
      x ∈ (t.info r).cExt ∨ r = p ∧ o = x := by
  change x ∈ (update t.info p { t.info p with cExt := insert o (t.info p).cExt } r).cExt ↔ _
  by_cases here : r = p
  · rw [here, update_self, Finset.mem_insert]
    simp [or_comm, eq_comm]
  · rw [update_of_ne here]
    simp [here]

structure LineRecords (p : Nat) (t : Tables) (l : Line) (t' : Tables) : Prop where
  calling : ∀ r q, q ∈ t'.calling r ↔ q ∈ t.calling r ∨ r = p ∧ l = ⟨.opCal, .opProc q⟩
  caiSet : ∀ r, r ∈ t'.caiSet ↔ r ∈ t.caiSet ∨ r = p ∧ l.instr = .opCai
  lpiSet : ∀ q, q ∈ t'.lpiSet ↔ q ∈ t.lpiSet ∨ l = ⟨.opLpi, .opProc q⟩
  cExt : ∀ r o, o ∈ (t'.info r).cExt ↔ o ∈ (t.info r).cExt ∨ r = p ∧ ChangesExternal o l
  cIndir : ∀ r, (t'.info r).cIndir = true ↔
    (t.info r).cIndir = true ∨ r = p ∧ storesIndirect l.instr = true
  uIndir : ∀ r, (t'.info r).uIndir = true ↔
    (t.info r).uIndir = true ∨ r = p ∧ loadsIndirect l.instr = true
  environ : ∀ r, (t'.info r).environ = true ↔ (t.info r).environ = true ∨ r = p ∧ UsesEnvironment l
  calUnknown : ∀ r, (t'.info r).calUnknown = (t.info r).calUnknown

theorem analyseLine_records (p : Nat) (inloop : Bool) (t : Tables) (l : Line) :
    LineRecords p t l (analyseLine p inloop t l) := by
  obtain ⟨instr, operand⟩ := l
  unfold analyseLine
  split <;> (try split) <;> (try split)
  all_goals exact {
    calling := by simp_all [mem_call]
    caiSet := by simp_all [or_comm]
    lpiSet := by simp_all [or_comm, eq_comm]
    cExt := by simp_all [note_ext, note_same Info.cExt, ChangesExternal]
    cIndir := by simp_all [note_flag, note_same Info.cIndir, storesIndirect]
    uIndir := by simp_all [note_flag, note_same Info.uIndir, loadsIndirect]
    environ := by simp_all [note_flag, note_same Info.environ, UsesEnvironment]
    calUnknown := by simp_all [note_same Info.calUnknown] }

/-! ### The other lines that are read -/

/-- Reading a line finds addresses only: it changes `lpi_set` and `PF_LPI`. -/
structure OnlyAddresses (t t' : Tables) : Prop where
  calling : t'.calling = t.calling
  caiSet : t'.caiSet = t.caiSet
  calUnknown : ∀ r, (t'.info r).calUnknown = (t.info r).calUnknown
  environ : ∀ r, (t'.info r).environ = (t.info r).environ
  cExt : ∀ r, (t'.info r).cExt = (t.info r).cExt
  cIndir : ∀ r, (t'.info r).cIndir = (t.info r).cIndir
  uIndir : ∀ r, (t'.info r).uIndir = (t.info r).uIndir

theorem OnlyAddresses.refl (t : Tables) : OnlyAddresses t t :=
  ⟨rfl, rfl, fun _ => rfl, fun _ => rfl, fun _ => rfl, fun _ => rfl, fun _ => rfl⟩

theorem OnlyAddresses.trans {t t' t'' : Tables} (first : OnlyAddresses t t')
    (second : OnlyAddresses t' t'') : OnlyAddresses t t'' where
  calling := second.calling.trans first.calling
  caiSet := second.caiSet.trans first.caiSet
  calUnknown r := (second.calUnknown r).trans (first.calUnknown r)
  environ r := (second.environ r).trans (first.environ r)
  cExt r := (second.cExt r).trans (first.cExt r)
  cIndir r := (second.cIndir r).trans (first.cIndir r)
  uIndir r := (second.uIndir r).trans (first.uIndir r)

theorem OnlyAddresses.address (t : Tables) (q : Nat) : OnlyAddresses t (t.address q) where
  calling := rfl
  caiSet := rfl
  calUnknown := note_same Info.calUnknown (f := fun i => { i with lpi := true }) (fun _ => rfl) t q
  environ := note_same Info.environ (f := fun i => { i with lpi := true }) (fun _ => rfl) t q
  cExt := note_same Info.cExt (f := fun i => { i with lpi := true }) (fun _ => rfl) t q
  cIndir := note_same Info.cIndir (f := fun i => { i with lpi := true }) (fun _ => rfl) t q
  uIndir := note_same Info.uIndir (f := fun i => { i with lpi := true }) (fun _ => rfl) t q

theorem addresses_only (args : List Arg) (t : Tables) : OnlyAddresses t (addresses args t) := by
  induction args generalizing t with
  | nil => exact .refl t
  | cons arg args ih =>
    cases arg with
    | argProc q => exact (OnlyAddresses.address t q).trans (ih (t.address q))
    | _ => exact ih t

theorem doreadLine_only (t : Tables) (l : Line) : OnlyAddresses t (doreadLine t l) := by
  unfold doreadLine
  split
  next args _ =>
    split
    next => exact addresses_only args t
    next => exact .refl t
  next => exact .refl t

theorem addresses_lpiSet (args : List Arg) (t : Tables) (q : Nat) :
    q ∈ (addresses args t).lpiSet ↔ q ∈ t.lpiSet ∨ .argProc q ∈ args := by
  induction args generalizing t with
  | nil => simp [addresses]
  | cons arg args ih =>
    cases arg with
    | argProc r =>
      rw [addresses, ih, address_lpiSet, Finset.mem_insert, List.mem_cons, Arg.argProc.injEq]
      grind
    | _ => simp [addresses, ih]

theorem doreadLine_lpiSet (q : Nat) (t : Tables) (l : Line) :
    q ∈ (doreadLine t l).lpiSet ↔ q ∈ t.lpiSet ∨
      l.instr ≠ .psMes ∧ ∃ args, l.operand = .opList args ∧ .argProc q ∈ args := by
  obtain ⟨instr, operand⟩ := l
  unfold doreadLine
  cases operand with
  | opList args =>
    by_cases pseudo : instr = .psMes
    · simp [pseudo]
    · simp [pseudo, addresses_lpiSet]
  | _ => simp

/-! ### The units -/

/-- `P` says that something has been recorded about `p`, which is what `Q` says of one of its
lines. -/
structure Records (P : Tables → Prop) (p : Nat) (Q : Line → Prop) : Prop where
  line : ∀ r inloop t l, P (analyseLine r inloop t l) ↔ P t ∨ p = r ∧ Q l
  read : ∀ t l, P (doreadLine t l) ↔ P t
  fresh : ∀ r t, P (freshSets t r) ↔ P t ∧ p ≠ r

section Units

variable {P : Tables → Prop} {p : Nat} {Q : Line → Prop}

theorem body_proc {u : TextUnit} {l : Line} (inBody : l ∈ u.body p) : u.proc = some p := by
  cases u with
  | data lines => exact absurd inBody List.not_mem_nil
  | text r blocks =>
    by_cases own : r = p
    · rw [own]
      rfl
    · rw [TextUnit.body, if_neg own] at inBody
      exact absurd inBody List.not_mem_nil

theorem interprocAnalysis_records (records : Records P p Q) (r : Nat) (blocks : List Block)
    (t : Tables) :
    P (interprocAnalysis r blocks t) ↔
      P t ∧ p ≠ r ∨ p = r ∧ ∃ l ∈ blocks.flatMap Block.lines, Q l := by
  have block : ∀ s b, P (analyseBlock r s b) ↔ P s ∨ ∃ l ∈ b.lines, p = r ∧ Q l :=
    fun s b => foldl_records (records.line r _) b.lines s
  unfold interprocAnalysis
  rw [foldl_records block, records.fresh]
  grind

/-- Reading a unit replaces what is known about its procedure. -/
theorem readUnit_records (records : Records P p Q) (t : Tables) (u : TextUnit) :
    P (readUnit t u) ↔ P t ∧ p ∉ u.proc ∨ ∃ l ∈ u.body p, Q l := by
  have read : P (u.lines.foldl doreadLine t) ↔ P t := by
    have each : ∀ s l, P (doreadLine s l) ↔ P s ∨ False := by simp [records.read]
    simpa using foldl_records each u.lines t
  cases u with
  | data lines =>
    change P (lines.foldl doreadLine t) ↔ _
    rw [show P (lines.foldl doreadLine t) ↔ P t from read]
    simp [TextUnit.proc, TextUnit.body]
  | text r blocks =>
    change P (interprocAnalysis r blocks _) ↔ _
    rw [interprocAnalysis_records records, read]
    by_cases own : r = p
    · simp [own, TextUnit.proc, TextUnit.body]
    · have other : p ≠ r := Ne.symm own
      simp [own, other, TextUnit.proc, TextUnit.body]

/-- After all units it is known what their bodies say, each procedure having one body. -/
theorem readUnits_records (records : Records P p Q) (units : List TextUnit)
    (once : (units.filterMap TextUnit.proc).Nodup) (t : Tables)
    (nothing : P t → p ∉ units.filterMap TextUnit.proc) :
    P (units.foldl readUnit t) ↔ P t ∨ ∃ l ∈ units.flatMap (TextUnit.body p), Q l := by
  induction units generalizing t with
  | nil => simp
  | cons u units ih =>
    have before : P t → p ∉ u.proc ∧ p ∉ units.filterMap TextUnit.proc := by
      intro known
      have neither := nothing known
      simp only [List.mem_filterMap, List.mem_cons, not_exists, not_and] at neither ⊢
      exact ⟨neither u (.inl rfl), fun v member => neither v (.inr member)⟩
    have here : (∃ l ∈ u.body p, Q l) → p ∉ units.filterMap TextUnit.proc := by
      rintro ⟨l, inBody, -⟩ again
      rw [List.filterMap_cons_some (body_proc inBody)] at once
      exact (List.nodup_cons.mp once).1 again
    have step := readUnit_records records t u
    have rest : (units.filterMap TextUnit.proc).Nodup :=
      once.sublist ((List.sublist_cons_self u units).filterMap _)
    rw [List.foldl_cons, ih rest (readUnit t u) fun known =>
      (step.mp known).elim (fun old => (before old.1).2) here, step]
    simp only [List.flatMap_cons, List.mem_append]
    constructor
    · rintro ((⟨old, -⟩ | ⟨l, inBody, holds⟩) | ⟨l, inRest, holds⟩)
      · exact .inl old
      · exact .inr ⟨l, .inl inBody, holds⟩
      · exact .inr ⟨l, .inr inRest, holds⟩
    · rintro (old | ⟨l, inBody | inRest, holds⟩)
      · exact .inl (.inl ⟨old, (before old).1⟩)
      · exact .inl (.inr ⟨l, inBody, holds⟩)
      · exact .inr ⟨l, inRest, holds⟩

end Units

/-! ### The tables after the first loop -/

theorem calling_records (p q : Nat) :
    Records (fun t => q ∈ t.calling p) p (fun l => l = ⟨.opCal, .opProc q⟩) where
  line r inloop t l := (analyseLine_records r inloop t l).calling p q
  read t l := by rw [(doreadLine_only t l).calling]
  fresh r t := by
    change q ∈ update t.calling r ∅ p ↔ _
    by_cases own : p = r <;> simp [own]

theorem cExt_records (p o : Nat) :
    Records (fun t => o ∈ (t.info p).cExt) p (ChangesExternal o) where
  line r inloop t l := (analyseLine_records r inloop t l).cExt p o
  read t l := by rw [(doreadLine_only t l).cExt]
  fresh r t := by
    by_cases own : p = r <;> simp [own, freshSets, Tables.note]

theorem cIndir_records (p : Nat) :
    Records (fun t => (t.info p).cIndir = true) p (fun l => storesIndirect l.instr = true) where
  line r inloop t l := (analyseLine_records r inloop t l).cIndir p
  read t l := by rw [(doreadLine_only t l).cIndir]
  fresh r t := by
    by_cases own : p = r <;> simp [own, freshSets, Tables.note]

theorem uIndir_records (p : Nat) :
    Records (fun t => (t.info p).uIndir = true) p (fun l => loadsIndirect l.instr = true) where
  line r inloop t l := (analyseLine_records r inloop t l).uIndir p
  read t l := by rw [(doreadLine_only t l).uIndir]
  fresh r t := by
    by_cases own : p = r <;> simp [own, freshSets, Tables.note]

/-- What is gathered from all lines and never taken back: `A` is what a line of a procedure
adds, `B` what any line adds when it is read. -/
theorem readUnits_gather {P : Tables → Prop} {A : Nat → Line → Prop} {B : Line → Prop}
    (line : ∀ r inloop t l, P (analyseLine r inloop t l) ↔ P t ∨ A r l)
    (read : ∀ t l, P (doreadLine t l) ↔ P t ∨ B l) (fresh : ∀ r t, P (freshSets t r) ↔ P t)
    (units : List TextUnit) (t : Tables) :
    P (units.foldl readUnit t) ↔ P t ∨ (∃ r, ∃ l ∈ units.flatMap (TextUnit.body r), A r l) ∨
      ∃ l ∈ units.flatMap TextUnit.lines, B l := by
  have unit : ∀ s u, P (readUnit s u) ↔
      P s ∨ (∃ r, ∃ l ∈ TextUnit.body r u, A r l) ∨ ∃ l ∈ TextUnit.lines u, B l := by
    intro s u
    have readLines := foldl_records read u.lines s
    cases u with
    | data lines =>
      change P (lines.foldl doreadLine s) ↔ _
      rw [show P (lines.foldl doreadLine s) ↔ _ from readLines]
      simp [TextUnit.body]
    | text r blocks =>
      have block : ∀ s b, P (analyseBlock r s b) ↔ P s ∨ ∃ l ∈ b.lines, A r l :=
        fun s b => foldl_records (line r _) b.lines s
      change P (blocks.foldl (analyseBlock r) (freshSets _ r)) ↔ _
      rw [foldl_records block, fresh, readLines]
      have own : (∃ r', ∃ l ∈ TextUnit.body r' (.text r blocks), A r' l) ↔
          ∃ b ∈ blocks, ∃ l ∈ b.lines, A r l := by
        simp only [TextUnit.body, List.mem_ite_nil_right, List.mem_flatMap]
        constructor
        · rintro ⟨r', l, ⟨rfl, b, inUnit, inBlock⟩, adds⟩
          exact ⟨b, inUnit, l, inBlock, adds⟩
        · rintro ⟨b, inUnit, l, inBlock, adds⟩
          exact ⟨r, l, ⟨rfl, b, inUnit, inBlock⟩, adds⟩
      rw [own, or_assoc]
      exact or_congr_right or_comm
  rw [foldl_records unit]
  simp only [List.mem_flatMap]
  constructor
  · rintro (old | ⟨u, inUnits, ⟨r, l, inBody, adds⟩ | ⟨l, inUnit, adds⟩⟩)
    · exact .inl old
    · exact .inr (.inl ⟨r, l, ⟨u, inUnits, inBody⟩, adds⟩)
    · exact .inr (.inr ⟨l, ⟨u, inUnits, inUnit⟩, adds⟩)
  · rintro (old | ⟨r, l, ⟨u, inUnits, inBody⟩, adds⟩ | ⟨l, ⟨u, inUnits, inUnit⟩, adds⟩)
    · exact .inl old
    · exact .inr ⟨u, inUnits, .inl ⟨r, l, inBody, adds⟩⟩
    · exact .inr ⟨u, inUnits, .inr ⟨l, inUnit, adds⟩⟩

def Program.collected (prog : Program) : Tables := prog.units.foldl readUnit {}

variable (prog : Program)
include prog

theorem collected_calling (p q : Nat) :
    q ∈ prog.collected.calling p ↔ ⟨.opCal, .opProc q⟩ ∈ prog.body p := by
  rw [Program.collected, readUnits_records (calling_records p q) prog.units prog.once]
  · simp [Program.body]
  · simp

theorem collected_cExt (p o : Nat) :
    o ∈ (prog.collected.info p).cExt ↔ ∃ l ∈ prog.body p, ChangesExternal o l := by
  rw [Program.collected, readUnits_records (cExt_records p o) prog.units prog.once]
  · simp [Program.body]
  · simp

theorem collected_cIndir (p : Nat) :
    (prog.collected.info p).cIndir = true ↔ ∃ l ∈ prog.body p, storesIndirect l.instr = true := by
  rw [Program.collected, readUnits_records (cIndir_records p) prog.units prog.once]
  · simp [Program.body]
  · simp

theorem collected_uIndir (p : Nat) :
    (prog.collected.info p).uIndir = true ↔ ∃ l ∈ prog.body p, loadsIndirect l.instr = true := by
  rw [Program.collected, readUnits_records (uIndir_records p) prog.units prog.once]
  · simp [Program.body]
  · simp

theorem collected_caiSet (p : Nat) :
    p ∈ prog.collected.caiSet ↔ ∃ l ∈ prog.body p, l.instr = .opCai := by
  rw [Program.collected, readUnits_gather (P := fun t => p ∈ t.caiSet)
    (A := fun r l => p = r ∧ l.instr = .opCai) (B := fun _ => False)
    (fun r inloop t l => (analyseLine_records r inloop t l).caiSet p)
    (fun t l => by simp [(doreadLine_only t l).caiSet]) (fun _ _ => Iff.rfl)]
  simp [Program.body]

theorem collected_lpiSet (q : Nat) :
    q ∈ prog.collected.lpiSet ↔ AddressTaken prog.units q := by
  rw [Program.collected, readUnits_gather (P := fun t => q ∈ t.lpiSet)
    (fun r inloop t l => (analyseLine_records r inloop t l).lpiSet q) (doreadLine_lpiSet q)
    (fun _ _ => Iff.rfl)]
  simp [AddressTaken]

theorem collected_environ (p : Nat) :
    (prog.collected.info p).environ = true ↔ ∃ l ∈ prog.body p, UsesEnvironment l := by
  rw [Program.collected, readUnits_gather (P := fun t => (t.info p).environ = true)
    (A := fun r l => p = r ∧ UsesEnvironment l) (B := fun _ => False)
    (fun r inloop t l => (analyseLine_records r inloop t l).environ p)
    (fun t l => by simp [(doreadLine_only t l).environ])
    (fun r t => by by_cases own : p = r <;> simp [own, freshSets, Tables.note])]
  simp [Program.body]

/-- No procedure is known to call an unknown one before the closure. -/
theorem collected_calUnknown (p : Nat) :
    (prog.collected.info p).calUnknown = false := by
  have gathered := readUnits_gather (P := fun t => (t.info p).calUnknown = true)
    (A := fun _ _ => False) (B := fun _ => False)
    (fun r inloop t l => by simp [(analyseLine_records r inloop t l).calUnknown])
    (fun t l => by simp [(doreadLine_only t l).calUnknown])
    (fun r t => by by_cases own : p = r <;> simp [own, freshSets, Tables.note]) prog.units {}
  rw [← Bool.not_eq_true, Program.collected, gathered]
  simp

/-- After `indir_calls` the sets `p_calling` are the calls of the program. -/
theorem indirCalls_calling (p q : Nat) :
    q ∈ (indirCalls prog.collected).calling p ↔ Calls prog p q := by
  have calls : Calls prog p q ↔ q ∈ prog.collected.calling p ∨
      p ∈ prog.collected.caiSet ∧ q ∈ prog.collected.lpiSet := by
    rw [collected_calling, collected_caiSet, collected_lpiSet]
    rfl
  rw [calls, indirCalls]
  by_cases cai : p ∈ prog.collected.caiSet
  · simp [cai, or_comm]
  · simp [cai]

end AckFormal.Ego.Cf
