import AckFormal.As.ExprTypes

/-!
# Delayed zeros of the assembler

The bytes of the sections: `emit1` of `as/comm7.c`, `switchsect`, `align` and `newbase` of
`as/comm6.c`, the `.space` rule of `as/comm2.y`, and what `pass_23` and `setupoutput` of
`as/comm4.c` do with the sections between passes.  The zeros of a gap are kept in `s_zero` until
the next byte of their section; the header of the object file, with the number of bytes of each
section in it, is written before the third pass starts.

Between the code and the contents written at once stands a machine that has, for each section,
the bytes written and the number of zeros pending.
-/

namespace AckFormal.As.DelayedZeros

open As.ExprTypes
open Function (update update_eq_self update_of_ne update_self)
open Option (bind_eq_some_iff map_eq_some_iff)

/-- The machine and the sections of a program; `comm` is `s_comm`, the length of its commons. -/
structure Config where
  asld : Bool
  addr : AddrT
  alignword : Int
  alignsect : Int
  nsect : Nat
  comm : Nat → Nat
  word_pos : 0 < alignword
  word_fits : addr.convert alignword = some alignword
  sect_pos : 0 < alignsect

structure Sect where
  s_base : Int
  s_size : Int
  s_zero : Int
  s_lign : Int
  based : Bool

structure State where
  sect : Nat → Sect
  /-- the index of `DOTSCT`, `DOTTYP` less `S_MIN` -/
  dotsct : Option Nat
  dotval : Int
  olddottyp : Option Nat
  /-- the section selected by `wr_outsect` -/
  sectionnr : Nat
  /-- what `wr_putc` has written for each section -/
  out : Nat → List UInt8

namespace State

def start (cfg : Config) : State where
  sect _ := ⟨0, 0, 0, cfg.alignsect, false⟩
  dotsct := none
  dotval := 0
  olddottyp := none
  sectionnr := 0
  out _ := []

def setSect (st : State) (s : Nat) (sp : Sect) : State :=
  { st with sect := update st.sect s sp }

def wr_outsect (st : State) (s : Nat) : State :=
  if st.olddottyp ≠ some s then { st with sectionnr := s, olddottyp := some s } else st

def wr_putc (st : State) (bytes : List UInt8) : State :=
  { st with out := update st.out st.sectionnr (st.out st.sectionnr ++ bytes) }

end State

/-- What a program does with the sections.  Code may take more bytes in the first pass than it
has in the others. -/
inductive Event where
  | sect (s : Nat)
  | code (first : Nat) (bytes : List UInt8)
  | align (bytes : Int)
  | space (amount : Int)
  | base (n : Int)

variable (cfg : Config)

/-- What `emit1` writes; a loop over negative pending zeros does not end. -/
def putc (pass : Pass) (arg : UInt8) (s : Nat) (st : State) : Option State :=
  if pass = .PASS_3 then
    if (st.sect s).s_zero < 0 then none
    else some ((st.wr_outsect s).wr_putc (List.replicate (st.sect s).s_zero.toNat 0 ++ [arg]))
  else some st

def emit1 (pass : Pass) (arg : UInt8) (st : State) : Option State := do
  let s ← st.dotsct
  let st ← putc pass arg s st
  let dotval ← cfg.addr.convert (st.dotval + 1)
  some { st.setSect s { st.sect s with s_zero := 0 } with dotval := dotval }

def emit (pass : Pass) : List UInt8 → State → Option State
  | [], st => some st
  | arg :: rest, st => do
      let st ← emit1 cfg pass arg st
      emit pass rest st

def leave (gap : Int) (s : Nat) (st : State) : Option State := do
  let dotval ← cfg.addr.convert (st.dotval + gap)
  let zero ← cfg.addr.convert ((st.sect s).s_zero + gap)
  some { st.setSect s { st.sect s with s_zero := zero } with dotval := dotval }

def space (amount : Int) (st : State) : Option State := do
  let s ← st.dotsct
  leave cfg amount s st

def Config.alignBytes (bytes : Int) : Int := if bytes = 0 then cfg.alignword else bytes

/-- The new `s_lign`; an illegal alignment stops the assembler. -/
def alignSect (lign bytes : Int) : Option Int :=
  if lign.tmod bytes ≠ 0 then
    if lign = 0 then none
    else if bytes.tmod lign ≠ 0 then none
    else cfg.addr.convert bytes
  else some lign

def alignGap (pass : Pass) (dotval bytes : Int) : Int :=
  if pass = .PASS_1 then bytes - 1
  else
    let gap := dotval.tmod bytes
    if gap ≠ 0 then bytes - gap else gap

def align (pass : Pass) (bytes : Int) (st : State) : Option State := do
  let s ← st.dotsct
  let bytes := cfg.alignBytes bytes
  let lign ← alignSect cfg (st.sect s).s_lign bytes
  leave cfg (alignGap pass st.dotval bytes) s (st.setSect s { st.sect s with s_lign := lign })

def saveSize (st : State) : Option State :=
  match st.dotsct with
  | none => some st
  | some s => do
      let size ← cfg.addr.convert (st.dotval - (st.sect s).s_base)
      some (st.setSect s { st.sect s with s_size := size })

def switchsect (newtyp : Option Nat) (st : State) : Option State := do
  let st ← saveSize cfg st
  match newtyp with
  | none => some { st with dotsct := none }
  | some s =>
    if s < cfg.nsect then do
      let dotval ← cfg.addr.convert ((st.sect s).s_size + (st.sect s).s_base)
      some { st with dotsct := some s, dotval := dotval }
    else none

/-- The rule for `.base` with `newbase`, which only a linking assembler obeys. -/
def newbase (pass : Pass) (n : Int) (st : State) : Option State :=
  if pass = .PASS_1 then
    if cfg.asld then do
      let s ← st.dotsct
      if (st.sect s).based then none
      else do
        let base ← cfg.addr.convert n
        let dotval ← cfg.addr.convert (st.dotval + n)
        some { st.setSect s { st.sect s with s_base := base, based := true } with dotval := dotval }
    -- `.base ignored` is a warning, and warnings stop the assembler
    else none
  else some st

def step (pass : Pass) (event : Event) (st : State) : Option State :=
  match event with
  | .sect s => switchsect cfg (some s) st
  | .code first bytes =>
    emit cfg pass (if pass = .PASS_1 then List.replicate first 0 else bytes) st
  | .align bytes => align cfg pass bytes st
  | .space amount => space cfg amount st
  | .base n => newbase cfg pass n st

def run (pass : Pass) : List Event → State → Option State
  | [], st => some st
  | event :: rest, st => do
      let st ← step cfg pass event st
      run pass rest st

def baseOf (sp : Sect) (base : Int) : Option Int :=
  if sp.s_lign = 0 then none
  else if sp.based then
    if sp.s_base.tmod sp.s_lign ≠ 0 then none else some sp.s_base
  else do
    let base ← cfg.addr.convert (base + (sp.s_lign - 1))
    cfg.addr.convert (base - base.tmod sp.s_lign)

/-- The bases that a linking assembler gives to sections one after the other. -/
def place : List Nat → Int → State → Option State
  | [], _, st => some st
  | s :: rest, base, st => do
      let base ← baseOf cfg (st.sect s) base
      let next ← cfg.addr.convert (base + (st.sect s).s_size)
      let next ← cfg.addr.convert (next + cfg.comm s)
      place rest next (st.setSect s { st.sect s with s_base := base })

def bases (st : State) : Option State :=
  if cfg.asld then place cfg (List.range cfg.nsect) 0 st else some st

def clear (st : State) : State :=
  { st with sect := fun s => { st.sect s with s_size := 0, s_zero := 0 } }

def onePass (n : Pass) (program : List Event) (st : State) : Option State := do
  let st ← run cfg n program st
  switchsect cfg none st

def uint32 (n : Int) : Nat := (n % 2 ^ 32).toNat

structure Assembled where
  /-- the start of the second pass -/
  second : State
  /-- the end of the second pass, with the bases of the third -/
  header : State
  out : Nat → List UInt8

def assemble (program : List Event) : Option Assembled := do
  let first ← onePass cfg .PASS_1 program (.start cfg)
  let second ← bases cfg first
  let third ← onePass cfg .PASS_2 program (clear second)
  let third ← bases cfg third
  let last ← onePass cfg .PASS_3 program (clear third)
  some ⟨clear second, third, last.out⟩

def os_size (r : Assembled) (s : Nat) : Nat := uint32 ((r.header.sect s).s_size + cfg.comm s)

def os_flen (r : Assembled) (s : Nat) : Nat :=
  uint32 ((r.header.sect s).s_size - (r.header.sect s).s_zero)

/-! ### Contents written at once -/

def gapTo (bytes : Int) (length : Nat) : Nat := ((-(length : Int)) % bytes).toNat

structure Contents where
  current : Option Nat
  bytes : Nat → List UInt8

def Contents.append (c : Contents) (more : Nat → List UInt8) : Contents :=
  match c.current with
  | none => c
  | some s => { c with bytes := update c.bytes s (c.bytes s ++ more s) }

def Contents.write (c : Contents) : Event → Contents
  | .sect s => { c with current := some s }
  | .code _ bytes => c.append fun _ => bytes
  | .align bytes =>
    c.append fun s => List.replicate (gapTo (cfg.alignBytes bytes) (c.bytes s).length) 0
  | .space amount => c.append fun _ => List.replicate amount.toNat 0
  | .base _ => c

def contents (program : List Event) : Nat → List UInt8 :=
  (program.foldl (Contents.write cfg) ⟨none, fun _ => []⟩).bytes

/-! ### Delayed zeros -/

structure Delayed where
  current : Option Nat
  written : Nat → List UInt8
  pending : Nat → Nat

namespace Delayed

variable {cfg}

def contents (d : Delayed) (s : Nat) : List UInt8 :=
  d.written s ++ List.replicate (d.pending s) 0

def emit1 (d : Delayed) (arg : UInt8) : Delayed :=
  match d.current with
  | none => d
  | some s =>
    { d with
      written := update d.written s (d.contents s ++ [arg])
      pending := update d.pending s 0 }

def leave (d : Delayed) (gap : Nat → Nat) : Delayed :=
  match d.current with
  | none => d
  | some s => { d with pending := update d.pending s (d.pending s + gap s) }

def step (cfg : Config) (d : Delayed) : Event → Delayed
  | .sect s => { d with current := some s }
  | .code _ bytes => bytes.foldl emit1 d
  | .align bytes => d.leave fun s => gapTo (cfg.alignBytes bytes) (d.contents s).length
  | .space amount => d.leave fun _ => amount.toNat
  | .base _ => d

def start : Delayed := ⟨none, fun _ => [], fun _ => 0⟩

/-- The contents, with the zeros that are pending behind the bytes. -/
def filled (d : Delayed) : Contents := ⟨d.current, d.contents⟩

theorem emit1_filled (d : Delayed) (arg : UInt8) :
    (d.emit1 arg).filled = d.filled.append fun _ => [arg] := by
  obtain ⟨current, written, pending⟩ := d
  cases current with
  | none => rfl
  | some s =>
    refine congrArg (Contents.mk (some s)) (funext fun other => ?_)
    by_cases same : other = s
    · subst same
      simp [contents, emit1, filled]
    · simp [contents, emit1, filled, same]

theorem leave_filled (d : Delayed) (gap : Nat → Nat) :
    (d.leave gap).filled = d.filled.append fun s => List.replicate (gap s) 0 := by
  obtain ⟨current, written, pending⟩ := d
  cases current with
  | none => rfl
  | some s =>
    refine congrArg (Contents.mk (some s)) (funext fun other => ?_)
    by_cases same : other = s
    · subst same
      simp [contents, leave, filled]
    · simp [contents, leave, filled, same]

theorem append_append (c : Contents) (bytes : List UInt8) (arg : UInt8) :
    (c.append fun _ => arg :: bytes) = (c.append fun _ => [arg]).append fun _ => bytes := by
  obtain ⟨current, start⟩ := c
  cases current with
  | none => rfl
  | some s => simp [Contents.append]

theorem emit_filled (bytes : List UInt8) (d : Delayed) :
    (bytes.foldl emit1 d).filled = d.filled.append fun _ => bytes := by
  induction bytes generalizing d with
  | nil =>
    obtain ⟨current, written, pending⟩ := d
    cases current with
    | none => rfl
    | some s => simp [filled, Contents.append]
  | cons arg bytes ih =>
    rw [List.foldl_cons, ih, emit1_filled]
    exact (append_append d.filled bytes arg).symm

theorem step_filled (d : Delayed) (event : Event) :
    (d.step cfg event).filled = d.filled.write cfg event := by
  cases event with
  | sect s => rfl
  | code first bytes => exact emit_filled bytes d
  | align bytes => exact leave_filled d _
  | space amount => exact leave_filled d _
  | base n => rfl

theorem run_filled (program : List Event) (d : Delayed) :
    (program.foldl (step cfg) d).filled = program.foldl (Contents.write cfg) d.filled := by
  induction program generalizing d with
  | nil => rfl
  | cons event rest ih =>
    rw [List.foldl_cons, List.foldl_cons, ih, step_filled]

theorem length_emit1 (d : Delayed) (arg : UInt8) (s : Nat) :
    (d.contents s).length ≤ ((d.emit1 arg).contents s).length := by
  obtain ⟨current, written, pending⟩ := d
  cases current with
  | none => exact Nat.le_refl _
  | some other =>
    by_cases same : s = other
    · subst same
      simp [contents, emit1]
    · simp [contents, emit1, same]

theorem length_leave (d : Delayed) (gap : Nat → Nat) (s : Nat) :
    (d.contents s).length ≤ ((d.leave gap).contents s).length := by
  obtain ⟨current, written, pending⟩ := d
  cases current with
  | none => exact Nat.le_refl _
  | some other =>
    by_cases same : s = other
    · subst same
      simp [contents, leave]
    · simp [contents, leave, same]

theorem length_emit (bytes : List UInt8) (d : Delayed) (s : Nat) :
    (d.contents s).length ≤ ((bytes.foldl emit1 d).contents s).length := by
  induction bytes generalizing d with
  | nil => exact Nat.le_refl _
  | cons arg bytes ih => exact (d.length_emit1 arg s).trans (ih _)

theorem length_step (d : Delayed) (event : Event) (s : Nat) :
    (d.contents s).length ≤ ((d.step cfg event).contents s).length := by
  cases event with
  | sect other => exact Nat.le_refl _
  | code first bytes => exact length_emit bytes d s
  | align bytes => exact length_leave d _ s
  | space amount => exact length_leave d _ s
  | base n => exact Nat.le_refl _

theorem length_run (program : List Event) (d : Delayed) (s : Nat) :
    (d.contents s).length ≤ ((program.foldl (step cfg) d).contents s).length := by
  induction program generalizing d with
  | nil => exact Nat.le_refl _
  | cons event rest ih => exact (d.length_step event s).trans (ih _)

end Delayed

/-! ### Addresses -/

/-- A part of a length, from a base on, has its addresses in `ADDR_T`. -/
def Room (addr : AddrT) (base : Int) (length : Nat) : Prop :=
  0 ≤ base ∧ addr.convert (base + length) = some (base + length)

variable {addr : AddrT} {st st' : State} {arg : UInt8} {s : Nat}

theorem convert_eq_of_le {m n : Int} (fits : addr.convert n = some n) (pos : 0 ≤ m) (le : m ≤ n) :
    addr.convert m = some m := by
  cases addr with
  | unsignedShort =>
    simp only [AddrT.convert, Option.some.injEq] at fits ⊢
    omega
  | uint32_t =>
    simp only [AddrT.convert, Option.some.injEq] at fits ⊢
    omega
  | long =>
    simp only [AddrT.convert, valu] at fits ⊢
    split at fits
    · exact if_pos (by omega)
    · exact nomatch fits

theorem Room.convert {base m : Int} {length : Nat} (room : Room addr base length) (pos : 0 ≤ m)
    (le : m ≤ base + length) : addr.convert m = some m :=
  convert_eq_of_le room.2 pos le

theorem Room.mono {base : Int} {length length' : Nat} (room : Room addr base length)
    (le : length' ≤ length) : Room addr base length' :=
  ⟨room.1, room.convert (by have := room.1; omega) (by omega)⟩

/-! ### The second and third pass -/

/-- A state of a later pass keeps the bytes and the zeros of the delayed machine. -/
structure Tracks (pass : Pass) (base lign : Nat → Int) (st : State) (d : Delayed) : Prop where
  current : st.dotsct = d.current
  known : ∀ s, d.current = some s → s < cfg.nsect
  placed : ∀ s, (st.sect s).s_base = base s
  aligned : ∀ s, (st.sect s).s_lign = lign s
  zero : ∀ s, (st.sect s).s_zero = d.pending s
  size : ∀ s, d.current ≠ some s → (st.sect s).s_size = (d.contents s).length
  dot : ∀ s, d.current = some s → st.dotval = base s + (d.contents s).length
  out : pass = .PASS_3 → st.out = d.written
  outsect : ∀ s, st.olddottyp = some s → st.sectionnr = s

theorem wr_outsect_sectionnr (outsect : ∀ s, st.olddottyp = some s → st.sectionnr = s) (s : Nat) :
    (st.wr_outsect s).sectionnr = s := by
  unfold State.wr_outsect
  split
  · rfl
  · rename_i same
    exact outsect s (not_not.mp same)

theorem wr_outsect_olddottyp (st : State) (s : Nat) : (st.wr_outsect s).olddottyp = some s := by
  unfold State.wr_outsect
  split
  · rfl
  · rename_i same
    exact not_not.mp same

theorem wr_outsect_same (st : State) (s : Nat) :
    (st.wr_outsect s).sect = st.sect ∧ (st.wr_outsect s).dotsct = st.dotsct ∧
      (st.wr_outsect s).dotval = st.dotval ∧ (st.wr_outsect s).out = st.out := by
  unfold State.wr_outsect
  split <;> exact ⟨rfl, rfl, rfl, rfl⟩

/-- Writing leaves the sections and the location counter. -/
theorem putc_same {pass : Pass} (written : putc pass arg s st = some st') :
    st'.sect = st.sect ∧ st'.dotsct = st.dotsct ∧ st'.dotval = st.dotval := by
  unfold putc at written
  split at written
  · split at written
    · exact nomatch written
    · cases written
      obtain ⟨sects, dotsct, dotval, -⟩ := wr_outsect_same st s
      exact ⟨sects, dotsct, dotval⟩
  · cases written
    exact ⟨rfl, rfl, rfl⟩

/-- The pending zeros and the byte go to their section. -/
theorem putc_out (written : putc .PASS_3 arg s st = some st')
    (outsect : ∀ s, st.olddottyp = some s → st.sectionnr = s) :
    st'.out = update st.out s
      (st.out s ++ (List.replicate (st.sect s).s_zero.toNat 0 ++ [arg])) := by
  rw [putc, if_pos rfl] at written
  split at written
  · exact nomatch written
  · cases written
    simp only [State.wr_putc, wr_outsect_sectionnr outsect, (wr_outsect_same st s).2.2.2]

theorem putc_outsect {pass : Pass} (written : putc pass arg s st = some st')
    (outsect : ∀ s, st.olddottyp = some s → st.sectionnr = s) :
    ∀ s, st'.olddottyp = some s → st'.sectionnr = s := by
  unfold putc at written
  split at written
  · split at written
    · exact nomatch written
    · cases written
      intro other old
      exact (wr_outsect_sectionnr outsect s).trans
        (Option.some.inj ((wr_outsect_olddottyp st s).symm.trans old))
  · cases written
    exact outsect

/-! ### What a step keeps -/

section

variable {cfg} {st st' st'' : State}

structure Kept (st st' : State) : Prop where
  lign : ∀ s, (st'.sect s).s_lign = (st.sect s).s_lign
  base : ∀ s, (st'.sect s).s_base = (st.sect s).s_base

theorem Kept.refl (st : State) : Kept st st := ⟨fun _ => rfl, fun _ => rfl⟩

theorem Kept.trans (first : Kept st st') (second : Kept st' st'') : Kept st st'' where
  lign s := (second.lign s).trans (first.lign s)
  base s := (second.base s).trans (first.base s)

def Silent (st st' : State) : Prop := st'.out = st.out ∧ st'.olddottyp = st.olddottyp

theorem Silent.refl (st : State) : Silent st st := ⟨rfl, rfl⟩

theorem Silent.trans (first : Silent st st') (second : Silent st' st'') : Silent st st'' :=
  ⟨second.1.trans first.1, second.2.trans first.2⟩

variable {s : Nat} {pass : Pass}

theorem setSect_field {α : Type} (field : Sect → α) (sp : Sect)
    (same : field sp = field (st.sect s)) (other : Nat) :
    field ((st.setSect s sp).sect other) = field (st.sect other) := by
  by_cases here : other = s
  · subst here
    simp [State.setSect, same]
  · simp [State.setSect, here]

theorem leave_kept {gap : Int} (left : leave cfg gap s st = some st') :
    Kept st st' ∧ st'.dotsct = st.dotsct ∧ Silent st st' := by
  obtain ⟨dotval, -, rest⟩ := bind_eq_some_iff.mp left
  obtain ⟨zero, -, same⟩ := bind_eq_some_iff.mp rest
  cases same
  exact ⟨⟨setSect_field Sect.s_lign { st.sect s with s_zero := zero } rfl,
    setSect_field Sect.s_base { st.sect s with s_zero := zero } rfl⟩, rfl, rfl, rfl⟩

theorem emit1_kept {arg : UInt8} (emitted : emit1 cfg pass arg st = some st') :
    Kept st st' ∧ st'.dotsct = st.dotsct ∧ (pass ≠ .PASS_3 → Silent st st') := by
  obtain ⟨s, -, rest⟩ := bind_eq_some_iff.mp emitted
  obtain ⟨written, put, rest⟩ := bind_eq_some_iff.mp rest
  obtain ⟨dotval, -, same⟩ := bind_eq_some_iff.mp rest
  cases same
  obtain ⟨sects, dotsct, -⟩ := putc_same put
  refine ⟨⟨fun other => ?_, fun other => ?_⟩, dotsct, fun quiet => ?_⟩
  · rw [← sects]
    exact setSect_field Sect.s_lign { written.sect s with s_zero := 0 } rfl other
  · rw [← sects]
    exact setSect_field Sect.s_base { written.sect s with s_zero := 0 } rfl other
  · rw [putc, if_neg quiet] at put
    cases put
    exact ⟨rfl, rfl⟩

theorem emit_kept {bytes : List UInt8} (emitted : emit cfg pass bytes st = some st') :
    Kept st st' ∧ st'.dotsct = st.dotsct ∧ (pass ≠ .PASS_3 → Silent st st') := by
  induction bytes generalizing st with
  | nil =>
    cases emitted
    exact ⟨.refl _, rfl, fun _ => .refl _⟩
  | cons arg bytes ih =>
    obtain ⟨between, one, more⟩ := bind_eq_some_iff.mp emitted
    obtain ⟨kept, current, silent⟩ := emit1_kept one
    obtain ⟨kept', current', silent'⟩ := ih more
    exact ⟨kept.trans kept', current'.trans current,
      fun quiet => (silent quiet).trans (silent' quiet)⟩

theorem saveSize_kept (saved : saveSize cfg st = some st') : Kept st st' ∧ Silent st st' := by
  unfold saveSize at saved
  split at saved
  · cases saved
    exact ⟨.refl st, .refl st⟩
  · obtain ⟨size, -, same⟩ := bind_eq_some_iff.mp saved
    cases same
    exact ⟨⟨setSect_field Sect.s_lign { st.sect _ with s_size := size } rfl,
      setSect_field Sect.s_base { st.sect _ with s_size := size } rfl⟩, rfl, rfl⟩

theorem switchsect_kept {newtyp : Option Nat} (switched : switchsect cfg newtyp st = some st') :
    Kept st st' ∧ st'.dotsct = newtyp ∧ Silent st st' := by
  obtain ⟨between, saved, rest⟩ := bind_eq_some_iff.mp switched
  obtain ⟨kept, silent⟩ := saveSize_kept saved
  cases newtyp with
  | none =>
    cases rest
    exact ⟨⟨kept.lign, kept.base⟩, rfl, silent⟩
  | some s =>
    simp only at rest
    split at rest
    · obtain ⟨dotval, -, same⟩ := bind_eq_some_iff.mp rest
      cases same
      exact ⟨⟨kept.lign, kept.base⟩, rfl, silent⟩
    · exact nomatch rest

end

section

variable {cfg} {pass : Pass} {base lign : Nat → Int} {st st' : State} {d : Delayed}

section

variable (tracks : Tracks cfg pass base lign st d)
include tracks

/-- A byte comes behind the zeros that its section owes. -/
theorem Tracks.emit1 {arg : UInt8}
    (emitted : emit1 cfg pass arg st = some st')
    (room : ∀ s, Room cfg.addr (base s) ((d.emit1 arg).contents s).length) :
    Tracks cfg pass base lign st' (d.emit1 arg) := by
  obtain ⟨kept, dotsct, -⟩ := emit1_kept emitted
  obtain ⟨s, current, rest⟩ := bind_eq_some_iff.mp emitted
  obtain ⟨between, written, rest⟩ := bind_eq_some_iff.mp rest
  obtain ⟨dotval, advanced, same⟩ := bind_eq_some_iff.mp rest
  cases same
  obtain ⟨sects, -, counter⟩ := putc_same written
  rw [tracks.current] at current
  have one : d.emit1 arg = { d with
      written := update d.written s (d.contents s ++ [arg])
      pending := update d.pending s 0 } := by
    rw [Delayed.emit1, current]
  have here : ((d.emit1 arg).contents s).length = (d.contents s).length + 1 := by
    simp [one, Delayed.contents, Nat.add_assoc]
  have apart : ∀ other, other ≠ s → (d.emit1 arg).contents other = d.contents other := by
    intro other different
    simp [one, Delayed.contents, different]
  have dot : dotval = base s + ((d.emit1 arg).contents s).length := by
    have value : between.dotval + 1 = base s + ((d.emit1 arg).contents s).length := by
      rw [counter, tracks.dot s current, here]
      omega
    rw [value, (room s).2] at advanced
    exact (Option.some.inj advanced).symm
  have still : (d.emit1 arg).current = d.current := by rw [one]
  refine ⟨(dotsct.trans tracks.current).trans still.symm, still ▸ tracks.known,
    fun other => (kept.base other).trans (tracks.placed other),
    fun other => (kept.lign other).trans (tracks.aligned other), ?_, ?_, ?_, ?_, ?_⟩
  · intro other
    by_cases same : other = s
    · subst same
      simp [State.setSect, one]
    · simp [State.setSect, same, sects, tracks.zero, one]
  · intro other elsewhere
    rw [still, current] at elsewhere
    have different : other ≠ s := fun same => elsewhere (congrArg some same.symm)
    rw [apart other different]
    simp only [State.setSect, update_of_ne different, sects]
    exact tracks.size other (current ▸ elsewhere)
  · intro other there
    rw [still, current] at there
    cases there
    exact dot
  · rintro rfl
    have number : (st.sect s).s_zero.toNat = d.pending s := by
      rw [tracks.zero]
      rfl
    have bytes := putc_out written tracks.outsect
    rw [tracks.out rfl, number, ← List.append_assoc] at bytes
    rw [one]
    exact bytes
  · have selected := putc_outsect written tracks.outsect
    exact selected

theorem Tracks.emit {bytes : List UInt8}
    (emitted : emit cfg pass bytes st = some st')
    (room : ∀ s, Room cfg.addr (base s) ((bytes.foldl Delayed.emit1 d).contents s).length) :
    Tracks cfg pass base lign st' (bytes.foldl Delayed.emit1 d) := by
  induction bytes generalizing st d with
  | nil =>
    cases emitted
    exact tracks
  | cons arg bytes ih =>
    obtain ⟨between, one, more⟩ := bind_eq_some_iff.mp emitted
    have first := tracks.emit1 one fun s => (room s).mono (Delayed.length_emit bytes _ s)
    exact ih first more room

/-- A gap is owed, and nothing is written. -/
theorem Tracks.leave {s : Nat} {gap : Int}
    {gaps : Nat → Nat} (current : d.current = some s) (number : gap = gaps s)
    (left : leave cfg gap s st = some st')
    (room : ∀ s, Room cfg.addr (base s) ((d.leave gaps).contents s).length) :
    Tracks cfg pass base lign st' (d.leave gaps) := by
  have kept := (leave_kept left).1
  obtain ⟨dotval, advanced, rest⟩ := bind_eq_some_iff.mp left
  obtain ⟨zero, added, same⟩ := bind_eq_some_iff.mp rest
  cases same
  have one : d.leave gaps = { d with pending := update d.pending s (d.pending s + gaps s) } := by
    rw [Delayed.leave, current]
  have here : ((d.leave gaps).contents s).length = (d.contents s).length + gaps s := by
    simp [one, Delayed.contents, Nat.add_assoc]
  have apart : ∀ other, other ≠ s → (d.leave gaps).contents other = d.contents other := by
    intro other different
    simp [one, Delayed.contents, different]
  have dot : dotval = base s + ((d.leave gaps).contents s).length := by
    have value : st.dotval + gap = base s + ((d.leave gaps).contents s).length := by
      rw [tracks.dot s current, here, number]
      omega
    rw [value, (room s).2] at advanced
    exact (Option.some.inj advanced).symm
  have pending : zero = (d.leave gaps).pending s := by
    have value : (st.sect s).s_zero + gap = (d.leave gaps).pending s := by
      simp [tracks.zero, number, one]
    have small : (d.leave gaps).pending s ≤ ((d.leave gaps).contents s).length := by
      simp [Delayed.contents]
    have fits := (room s).convert (m := (d.leave gaps).pending s) (by omega)
      (by have := (room s).1; omega)
    rw [value, fits] at added
    exact (Option.some.inj added).symm
  have still : (d.leave gaps).current = d.current := by rw [one]
  refine ⟨tracks.current.trans still.symm, still ▸ tracks.known,
    fun other => (kept.base other).trans (tracks.placed other),
    fun other => (kept.lign other).trans (tracks.aligned other), ?_, ?_, ?_, ?_, tracks.outsect⟩
  · intro other
    by_cases same : other = s
    · subst same
      simp [State.setSect, pending]
    · simp [State.setSect, same, tracks.zero, one]
  · intro other elsewhere
    rw [still, current] at elsewhere
    have different : other ≠ s := fun same => elsewhere (congrArg some same.symm)
    rw [apart other different]
    simp only [State.setSect, update_of_ne different]
    exact tracks.size other (current ▸ elsewhere)
  · intro other there
    rw [still, current] at there
    cases there
    exact dot
  · intro last
    rw [one]
    exact tracks.out last

end

/-- The gap of a later pass goes up to the next multiple. -/
theorem alignGap_eq {pass : Pass} (later : pass ≠ .PASS_1) {bytes base : Int} {length : Nat}
    (pos : 0 < bytes) (above : 0 ≤ base) (placed : bytes ∣ base) :
    alignGap pass (base + length) bytes = gapTo bytes length := by
  have counter : (base + length).tmod bytes = (length : Int) % bytes := by
    rw [Int.tmod_eq_emod_of_nonneg (by omega), Int.add_emod, Int.emod_eq_zero_of_dvd placed,
      Int.zero_add, Int.emod_emod_of_dvd _ (Int.dvd_refl bytes)]
  have low := Int.emod_nonneg (length : Int) (Int.ne_of_gt pos)
  have high := Int.emod_lt_of_pos (length : Int) pos
  have back := Int.emod_nonneg (-(length : Int)) (Int.ne_of_gt pos)
  rw [alignGap, if_neg later, counter, gapTo, Int.toNat_of_nonneg back]
  dsimp only
  split
  · rename_i rest
    have sum : -(length : Int) = (bytes - (length : Int) % bytes) +
        bytes * (-((length : Int) / bytes) - 1) := by
      have parts := Int.mul_ediv_add_emod (length : Int) bytes
      rw [mul_sub, mul_neg, mul_one]
      omega
    rw [sum, Int.add_mul_emod_self_left]
    exact (Int.emod_eq_of_lt (by omega) (by omega)).symm
  · rename_i none
    rw [not_not.mp none]
    have divides : bytes ∣ (length : Int) := Int.dvd_of_emod_eq_zero (not_not.mp none)
    exact (Int.emod_eq_zero_of_dvd (Int.dvd_neg.mpr divides)).symm

variable (tracks : Tracks cfg pass base lign st d)
include tracks

theorem Tracks.align (later : pass ≠ .PASS_1)
    {bytes : Int} (pos : 0 < cfg.alignBytes bytes)
    (allowed : ∀ s, d.current = some s →
      cfg.alignBytes bytes ∣ lign s ∧ cfg.alignBytes bytes ∣ base s)
    (left : align cfg pass bytes st = some st')
    (room : ∀ s, Room cfg.addr (base s) (((d.step cfg (.align bytes)).contents s).length)) :
    Tracks cfg pass base lign st' (d.step cfg (.align bytes)) := by
  obtain ⟨s, current, rest⟩ := bind_eq_some_iff.mp left
  obtain ⟨value, check, rest⟩ := bind_eq_some_iff.mp rest
  rw [tracks.current] at current
  obtain ⟨legal, placed⟩ := allowed s current
  have same : value = (st.sect s).s_lign := by
    rw [alignSect, tracks.aligned, Int.tmod_eq_zero_of_dvd legal, if_neg (not_not.mpr rfl)] at check
    rw [tracks.aligned]
    exact (Option.some.inj check).symm
  have kept : st.setSect s { st.sect s with s_lign := value } = st := by
    rw [same, State.setSect]
    exact congrArg (fun sects => { st with sect := sects }) (update_eq_self s st.sect)
  rw [kept, tracks.dot s current, alignGap_eq later pos (room s).1 placed] at rest
  exact @Tracks.leave _ _ _ _ _ _ _ tracks _ _
    (fun s => gapTo (cfg.alignBytes bytes) (d.contents s).length) current rfl rest room

theorem Tracks.space {amount : Int} (pos : 0 ≤ amount)
    (left : space cfg amount st = some st')
    (room : ∀ s, Room cfg.addr (base s) (((d.step cfg (.space amount)).contents s).length)) :
    Tracks cfg pass base lign st' (d.step cfg (.space amount)) := by
  obtain ⟨s, current, rest⟩ := bind_eq_some_iff.mp left
  rw [tracks.current] at current
  exact @Tracks.leave _ _ _ _ _ _ _ tracks _ _ (fun _ => amount.toNat) current
    (Int.toNat_of_nonneg pos).symm rest room

/-- The sizes are saved, and no section is current. -/
theorem Tracks.saveSize (saved : saveSize cfg st = some st')
    (room : ∀ s, Room cfg.addr (base s) (d.contents s).length) :
    Tracks cfg pass base lign { st' with dotsct := none } { d with current := none } := by
  have kept := (saveSize_kept saved).1
  unfold DelayedZeros.saveSize at saved
  cases current : d.current with
  | none =>
    rw [tracks.current, current] at saved
    cases saved
    exact ⟨rfl, nofun, tracks.placed, tracks.aligned, tracks.zero,
      fun other _ => tracks.size other (by rw [current]; nofun), nofun, tracks.out,
      tracks.outsect⟩
  | some s =>
    rw [tracks.current, current] at saved
    obtain ⟨size, fits, same⟩ := bind_eq_some_iff.mp saved
    cases same
    have number : size = (d.contents s).length := by
      have value : st.dotval - (st.sect s).s_base = (d.contents s).length := by
        rw [tracks.dot s current, tracks.placed]
        omega
      rw [value, (room s).convert (by omega) (by have := (room s).1; omega)] at fits
      exact (Option.some.inj fits).symm
    refine ⟨rfl, nofun, fun other => (kept.base other).trans (tracks.placed other),
      fun other => (kept.lign other).trans (tracks.aligned other), fun other => ?_, ?_, nofun,
      tracks.out, tracks.outsect⟩
    · refine (setSect_field Sect.s_zero { st.sect s with s_size := size } rfl other).trans ?_
      exact tracks.zero other
    · intro other _
      by_cases same : other = s
      · subst same
        simp only [State.setSect, update_self]
        exact number
      · simp only [State.setSect, update_of_ne same]
        refine tracks.size other ?_
        rw [current]
        exact fun equal => same (Option.some.inj equal).symm

theorem Tracks.switchsect {s : Nat}
    (switched : switchsect cfg (some s) st = some st')
    (room : ∀ s, Room cfg.addr (base s) (d.contents s).length) :
    Tracks cfg pass base lign st' { d with current := some s } := by
  obtain ⟨between, saved, rest⟩ := bind_eq_some_iff.mp switched
  have left := tracks.saveSize saved room
  simp only at rest
  split at rest
  · rename_i known
    obtain ⟨dotval, fits, same⟩ := bind_eq_some_iff.mp rest
    cases same
    have counter : dotval = base s + (d.contents s).length := by
      have value : (between.sect s).s_size + (between.sect s).s_base =
          base s + (d.contents s).length := by
        have size := left.size s nofun
        have place := left.placed s
        simp only [Delayed.contents] at size place ⊢
        omega
      rw [value, (room s).2] at fits
      exact (Option.some.inj fits).symm
    refine ⟨rfl, ?_, left.placed, left.aligned, left.zero, fun other _ => left.size other nofun, ?_,
      left.out, left.outsect⟩
    · intro other there
      cases there
      exact known
    · intro other there
      cases there
      exact counter
  · exact nomatch rest

end

/-! ### Alignments of a program -/

/-- The amounts of the directives are numbers of bytes, and an alignment is one of `ADDR_T`. -/
def Event.Amount (addr : AddrT) : Event → Prop
  | .align bytes => 0 ≤ bytes ∧ addr.convert bytes = some bytes
  | .space amount => 0 ≤ amount
  | _ => True

def Event.current (current : Option Nat) : Event → Option Nat
  | .sect s => some s
  | _ => current

def Aligned (lign : Nat → Int) : Option Nat → List Event → Prop
  | _, [] => True
  | current, event :: rest =>
    (∀ bytes s, event = .align bytes → current = some s → cfg.alignBytes bytes ∣ lign s) ∧
      Aligned lign (event.current current) rest

theorem alignBytes_pos {bytes : Int} (amount : 0 ≤ bytes) : 0 < cfg.alignBytes bytes := by
  have word := cfg.word_pos
  unfold Config.alignBytes
  split <;> omega

theorem alignBytes_fits {bytes : Int} (fits : cfg.addr.convert bytes = some bytes) :
    cfg.addr.convert (cfg.alignBytes bytes) = some (cfg.alignBytes bytes) := by
  unfold Config.alignBytes
  split
  · exact cfg.word_fits
  · exact fits

section

variable {cfg} {pass : Pass} {base lign : Nat → Int} {st st' : State} {d : Delayed}

theorem Delayed.emit_current (bytes : List UInt8) (d : Delayed) :
    (bytes.foldl emit1 d).current = d.current := by
  induction bytes generalizing d with
  | nil => rfl
  | cons arg bytes ih =>
    rw [List.foldl_cons, ih, emit1]
    split <;> rfl

theorem Delayed.step_current (d : Delayed) (event : Event) :
    (d.step cfg event).current = event.current d.current := by
  cases event with
  | sect s => rfl
  | code first bytes => exact emit_current bytes d
  | align bytes =>
    simp only [step, leave]
    split <;> rfl
  | space amount =>
    simp only [step, leave]
    split <;> rfl
  | base n => rfl

theorem Tracks.step (tracks : Tracks cfg pass base lign st d) (later : pass ≠ .PASS_1)
    {event : Event} (amount : event.Amount cfg.addr)
    (legal : ∀ bytes s, event = .align bytes → d.current = some s →
      cfg.alignBytes bytes ∣ lign s)
    (divides : ∀ s, s < cfg.nsect → lign s ∣ base s)
    (stepped : step cfg pass event st = some st')
    (room : ∀ s, Room cfg.addr (base s) ((d.step cfg event).contents s).length) :
    Tracks cfg pass base lign st' (d.step cfg event) := by
  cases event with
  | sect s =>
    exact tracks.switchsect stepped fun s => (room s).mono (d.length_step _ s)
  | code first bytes =>
    rw [DelayedZeros.step, if_neg later] at stepped
    exact tracks.emit stepped room
  | align bytes =>
    refine tracks.align later (alignBytes_pos cfg amount.1) (fun s current => ?_) stepped room
    have own := legal bytes s rfl current
    exact ⟨own, own.trans (divides s (tracks.known s current))⟩
  | space n => exact tracks.space amount stepped room
  | base n =>
    rw [DelayedZeros.step, newbase, if_neg later] at stepped
    cases stepped
    exact tracks

variable {program : List Event} (tracks : Tracks cfg pass base lign st d) (later : pass ≠ .PASS_1)
  (amounts : ∀ event ∈ program, event.Amount cfg.addr) (legal : Aligned cfg lign d.current program)
  (divides : ∀ s, s < cfg.nsect → lign s ∣ base s)
include tracks later amounts legal divides

theorem Tracks.run (ran : run cfg pass program st = some st')
    (room : ∀ s, Room cfg.addr (base s) ((program.foldl (Delayed.step cfg) d).contents s).length) :
    Tracks cfg pass base lign st' (program.foldl (Delayed.step cfg) d) := by
  induction program generalizing st d with
  | nil =>
    cases ran
    exact tracks
  | cons event rest ih =>
    obtain ⟨between, first, more⟩ := bind_eq_some_iff.mp ran
    obtain ⟨amount, amounts⟩ := List.forall_mem_cons.mp amounts
    have one := tracks.step later amount legal.1 divides first
      fun s => (room s).mono (Delayed.length_run rest _ s)
    refine ih one amounts ?_ more room
    rw [Delayed.step_current]
    exact legal.2

theorem Tracks.onePass (ran : onePass cfg pass program st = some st')
    (room : ∀ s, Room cfg.addr (base s) ((program.foldl (Delayed.step cfg) d).contents s).length) :
    Tracks cfg pass base lign st'
      { program.foldl (Delayed.step cfg) d with current := none } := by
  obtain ⟨between, steps, rest⟩ := bind_eq_some_iff.mp ran
  obtain ⟨between', saved, same⟩ := bind_eq_some_iff.mp rest
  cases same
  exact (tracks.run later amounts legal divides steps room).saveSize saved room

end

/-! ### The first pass -/

/-- What the first pass does with the alignments: they only become multiples. -/
structure Grown (st st' : State) : Prop where
  divides : ∀ s, (st.sect s).s_lign ∣ (st'.sect s).s_lign
  positive : ∀ s, 0 < (st.sect s).s_lign → 0 < (st'.sect s).s_lign

section

variable {cfg} {st st' st'' : State} {s : Nat} {pass : Pass} {n base : Int}

theorem Grown.of_eq (same : ∀ s, (st'.sect s).s_lign = (st.sect s).s_lign) : Grown st st' where
  divides s := same s ▸ Int.dvd_refl _
  positive s pos := (same s).symm ▸ pos

theorem Grown.trans (first : Grown st st') (second : Grown st' st'') : Grown st st'' where
  divides s := (first.divides s).trans (second.divides s)
  positive s pos := second.positive s (first.positive s pos)

theorem newbase_grown (based : newbase cfg pass n st = some st') :
    Grown st st' ∧ st'.dotsct = st.dotsct ∧ (cfg.asld = false → Kept st st') ∧ Silent st st' := by
  unfold newbase at based
  split at based
  · split at based
    · rename_i obeyed
      obtain ⟨s, -, rest⟩ := bind_eq_some_iff.mp based
      split at rest
      · exact nomatch rest
      · obtain ⟨base, -, rest⟩ := bind_eq_some_iff.mp rest
        obtain ⟨dotval, -, same⟩ := bind_eq_some_iff.mp rest
        cases same
        refine ⟨.of_eq ?_, rfl, fun separate => ?_, rfl, rfl⟩
        · exact setSect_field Sect.s_lign { st.sect s with s_base := base, based := true } rfl
        · rw [separate] at obeyed
          exact absurd obeyed Bool.false_ne_true
    · exact nomatch based
  · cases based
    exact ⟨.of_eq fun _ => rfl, rfl, fun _ => .refl st, .refl st⟩

/-- The alignment of a section becomes a multiple of the new one and of the old one. -/
theorem alignSect_divides {lign bytes value : Int} (pos : 0 < bytes)
    (fits : cfg.addr.convert bytes = some bytes) (check : alignSect cfg lign bytes = some value) :
    bytes ∣ value ∧ lign ∣ value ∧ (0 < lign → 0 < value) := by
  unfold alignSect at check
  split at check
  · split at check
    · exact nomatch check
    · split at check
      · exact nomatch check
      · rename_i divides
        rw [fits] at check
        cases check
        exact ⟨Int.dvd_refl _, Int.dvd_of_tmod_eq_zero (not_not.mp divides), fun _ => pos⟩
  · rename_i divides
    cases check
    exact ⟨Int.dvd_of_tmod_eq_zero (not_not.mp divides), Int.dvd_refl _, id⟩

/-- The section grows, and its alignment is a multiple of what is asked for. -/
theorem align_grown {bytes : Int} (pos : 0 < cfg.alignBytes bytes)
    (fits : cfg.addr.convert (cfg.alignBytes bytes) = some (cfg.alignBytes bytes))
    (left : align cfg pass bytes st = some st') :
    Grown st st' ∧ st'.dotsct = st.dotsct ∧
      (∀ s, st.dotsct = some s → cfg.alignBytes bytes ∣ (st'.sect s).s_lign) ∧
      (∀ s, (st'.sect s).s_base = (st.sect s).s_base) ∧ Silent st st' := by
  obtain ⟨s, current, rest⟩ := bind_eq_some_iff.mp left
  obtain ⟨value, check, rest⟩ := bind_eq_some_iff.mp rest
  obtain ⟨multiple, old, positive⟩ := alignSect_divides pos fits check
  obtain ⟨kept, dotsct, silent⟩ := leave_kept rest
  have here : (st'.sect s).s_lign = value := by
    rw [kept.lign]
    simp [State.setSect]
  have apart : ∀ other, other ≠ s → (st'.sect other).s_lign = (st.sect other).s_lign := by
    intro other different
    rw [kept.lign]
    simp [State.setSect, different]
  refine ⟨⟨fun other => ?_, fun other => ?_⟩, dotsct, fun other there => ?_, fun other => ?_, silent⟩
  · by_cases same : other = s
    · subst same
      exact here ▸ old
    · exact apart other same ▸ Int.dvd_refl _
  · by_cases same : other = s
    · subst same
      exact here ▸ positive
    · exact apart other same ▸ id
  · cases current.symm.trans there
    exact here ▸ multiple
  · rw [kept.base]
    exact setSect_field Sect.s_base { st.sect s with s_lign := value } rfl other

theorem step_grown {event : Event} (amount : event.Amount cfg.addr)
    (stepped : step cfg pass event st = some st') :
    Grown st st' ∧ st'.dotsct = event.current st.dotsct ∧
      (∀ bytes s, event = .align bytes → st.dotsct = some s →
        cfg.alignBytes bytes ∣ (st'.sect s).s_lign) ∧
      (cfg.asld = false → ∀ s, (st'.sect s).s_base = (st.sect s).s_base) ∧
      (pass ≠ .PASS_3 → Silent st st') := by
  cases event with
  | sect s =>
    have switched : switchsect cfg (some s) st = some st' := stepped
    obtain ⟨kept, current, silent⟩ := switchsect_kept switched
    exact ⟨.of_eq kept.lign, current, nofun, fun _ => kept.base, fun _ => silent⟩
  | code first bytes =>
    obtain ⟨kept, current, silent⟩ := emit_kept stepped
    exact ⟨.of_eq kept.lign, current, nofun, fun _ => kept.base, silent⟩
  | align bytes =>
    obtain ⟨grown, current, divides, base, silent⟩ := align_grown (alignBytes_pos cfg amount.1)
      (alignBytes_fits cfg amount.2) stepped
    refine ⟨grown, current, fun _ s same there => ?_, fun _ => base, fun _ => silent⟩
    cases same
    exact divides s there
  | space n =>
    obtain ⟨s, -, rest⟩ := bind_eq_some_iff.mp stepped
    obtain ⟨kept, current, silent⟩ := leave_kept rest
    exact ⟨.of_eq kept.lign, current, nofun, fun _ => kept.base, fun _ => silent⟩
  | base n =>
    obtain ⟨grown, current, kept, silent⟩ := newbase_grown stepped
    exact ⟨grown, current, nofun, fun separate => (kept separate).base, fun _ => silent⟩

/-- After the first pass every alignment of the program divides that of its section. -/
theorem run_grown {program : List Event} (amounts : ∀ event ∈ program, event.Amount cfg.addr)
    (ran : run cfg pass program st = some st') :
    Grown st st' ∧ Aligned cfg (fun s => (st'.sect s).s_lign) st.dotsct program ∧
      (cfg.asld = false → ∀ s, (st'.sect s).s_base = (st.sect s).s_base) ∧
      (pass ≠ .PASS_3 → Silent st st') := by
  induction program generalizing st with
  | nil =>
    cases ran
    exact ⟨.of_eq fun _ => rfl, trivial, fun _ _ => rfl, fun _ => .refl _⟩
  | cons event rest ih =>
    obtain ⟨between, first, more⟩ := bind_eq_some_iff.mp ran
    obtain ⟨amount, amounts⟩ := List.forall_mem_cons.mp amounts
    obtain ⟨grown, current, divides, base, silent⟩ := step_grown amount first
    obtain ⟨later, legal, base', silent'⟩ := ih amounts more
    refine ⟨grown.trans later, ⟨fun bytes s same there => ?_, current ▸ legal⟩,
      fun separate s => (base' separate s).trans (base separate s),
      fun quiet => (silent quiet).trans (silent' quiet)⟩
    exact (divides bytes s same there).trans (later.divides s)

/-! ### Bases -/

theorem convert_round {addr : AddrT} {high m : Int} (address : addr.convert n = some high)
    (round : 0 ≤ m ∧ m ≤ high ∨ high ≤ m ∧ m ≤ 0) : addr.convert m = some m := by
  cases addr with
  | unsignedShort =>
    simp only [AddrT.convert, Option.some.injEq] at address ⊢
    omega
  | uint32_t =>
    simp only [AddrT.convert, Option.some.injEq] at address ⊢
    omega
  | long =>
    simp only [AddrT.convert, valu] at address ⊢
    split at address
    · cases address
      exact if_pos (by omega)
    · exact nomatch address

/-- The base of a section is a multiple of its alignment. -/
theorem baseOf_divides {sp : Sect} {value : Int} (pos : 0 < sp.s_lign)
    (given : baseOf cfg sp base = some value) : sp.s_lign ∣ value := by
  unfold baseOf at given
  split at given
  · exact nomatch given
  · split at given
    · split at given
      · exact nomatch given
      · rename_i divides
        cases given
        exact Int.dvd_of_tmod_eq_zero (not_not.mp divides)
    · obtain ⟨high, fits, given⟩ := bind_eq_some_iff.mp given
      have parts := Int.mul_tdiv_add_tmod high sp.s_lign
      have down : high - high.tmod sp.s_lign = sp.s_lign * high.tdiv sp.s_lign := by omega
      have round : 0 ≤ high - high.tmod sp.s_lign ∧ high - high.tmod sp.s_lign ≤ high ∨
          high ≤ high - high.tmod sp.s_lign ∧ high - high.tmod sp.s_lign ≤ 0 := by
        rcases Int.le_total 0 high with above | below
        · have rest := Int.tmod_nonneg sp.s_lign above
          have quotient := Int.mul_nonneg (Int.le_of_lt pos)
            (Int.tdiv_nonneg above (Int.le_of_lt pos))
          omega
        · have rest := Int.tmod_nonneg sp.s_lign (Int.neg_nonneg_of_nonpos below)
          have quotient := Int.mul_nonneg (Int.le_of_lt pos)
            (Int.tdiv_nonneg (Int.neg_nonneg_of_nonpos below) (Int.le_of_lt pos))
          rw [Int.neg_tmod] at rest
          rw [Int.neg_tdiv, Int.mul_neg] at quotient
          omega
      rw [convert_round fits round] at given
      cases given
      exact ⟨_, down⟩

structure Rebased (st st' : State) : Prop where
  size : ∀ s, (st'.sect s).s_size = (st.sect s).s_size
  zero : ∀ s, (st'.sect s).s_zero = (st.sect s).s_zero
  lign : ∀ s, (st'.sect s).s_lign = (st.sect s).s_lign
  dotsct : st'.dotsct = st.dotsct
  out : st'.out = st.out
  olddottyp : st'.olddottyp = st.olddottyp

theorem place_rebased {sections : List Nat} (placed : place cfg sections base st = some st') :
    Rebased st st' := by
  induction sections generalizing st base with
  | nil =>
    cases placed
    exact ⟨fun _ => rfl, fun _ => rfl, fun _ => rfl, rfl, rfl, rfl⟩
  | cons s rest ih =>
    obtain ⟨value, -, more⟩ := bind_eq_some_iff.mp placed
    obtain ⟨next, -, more⟩ := bind_eq_some_iff.mp more
    obtain ⟨next', -, more⟩ := bind_eq_some_iff.mp more
    have later := ih more
    have field : ∀ {α : Type} (f : Sect → α), f { st.sect s with s_base := value } = f (st.sect s) →
        ∀ other, f ((st.setSect s { st.sect s with s_base := value }).sect other) =
          f (st.sect other) := fun f same => setSect_field f _ same
    exact ⟨fun other => (later.size other).trans (field Sect.s_size rfl other),
      fun other => (later.zero other).trans (field Sect.s_zero rfl other),
      fun other => (later.lign other).trans (field Sect.s_lign rfl other),
      later.dotsct, later.out, later.olddottyp⟩

/-- Every section in the list gets a base that is a multiple of its alignment. -/
theorem place_divides {sections : List Nat} (pos : ∀ s, 0 < (st.sect s).s_lign)
    (placed : place cfg sections base st = some st')
    (given : s ∈ sections ∨ (st.sect s).s_lign ∣ (st.sect s).s_base) :
    (st'.sect s).s_lign ∣ (st'.sect s).s_base := by
  induction sections generalizing st base with
  | nil =>
    cases placed
    exact given.resolve_left nofun
  | cons first rest ih =>
    obtain ⟨value, found, more⟩ := bind_eq_some_iff.mp placed
    obtain ⟨next, -, more⟩ := bind_eq_some_iff.mp more
    obtain ⟨next', -, more⟩ := bind_eq_some_iff.mp more
    have multiple := baseOf_divides (pos first) found
    have lign : ∀ other,
        ((st.setSect first { st.sect first with s_base := value }).sect other).s_lign =
          (st.sect other).s_lign :=
      setSect_field Sect.s_lign { st.sect first with s_base := value } rfl
    refine ih (fun other => (lign other).symm ▸ pos other) more ?_
    by_cases same : s = first
    · subst same
      refine .inr ?_
      simp only [State.setSect, update_self]
      exact multiple
    · rcases given with member | divides
      · exact .inl ((List.mem_cons.mp member).resolve_left same)
      · refine .inr ?_
        simp only [State.setSect, update_of_ne same]
        exact divides

theorem bases_rebased (given : bases cfg st = some st') : Rebased st st' := by
  unfold bases at given
  split at given
  · exact place_rebased given
  · cases given
    exact ⟨fun _ => rfl, fun _ => rfl, fun _ => rfl, rfl, rfl, rfl⟩

/-- The bases of a pass are multiples of the alignments; without linking they are all zero. -/
theorem bases_divides (pos : ∀ s, 0 < (st.sect s).s_lign)
    (origin : cfg.asld = false → ∀ s, (st.sect s).s_base = 0) (given : bases cfg st = some st')
    (known : s < cfg.nsect) : (st'.sect s).s_lign ∣ (st'.sect s).s_base := by
  unfold bases at given
  split at given
  · exact place_divides pos given (.inl (List.mem_range.mpr known))
  · rename_i separate
    cases given
    rw [origin (Bool.eq_false_iff.mpr separate)]
    exact Int.dvd_zero _

theorem bases_origin (separate : cfg.asld = false) (given : bases cfg st = some st') : st' = st := by
  rw [bases, separate] at given
  exact (Option.some.inj given).symm

theorem clear_tracks (nowhere : st.dotsct = none) (fresh : st.olddottyp = none)
    (empty : st.out = fun _ => []) :
    Tracks cfg pass (fun s => (st.sect s).s_base) (fun s => (st.sect s).s_lign) (clear st)
      .start where
  current := nowhere
  known := nofun
  placed _ := rfl
  aligned _ := rfl
  zero _ := rfl
  size _ _ := rfl
  dot := nofun
  out _ := empty
  outsect _ old := nomatch fresh.symm.trans old

theorem onePass_silent (quiet : pass ≠ .PASS_3) {program : List Event}
    (amounts : ∀ event ∈ program, event.Amount cfg.addr)
    (ran : onePass cfg pass program st = some st') : Silent st st' := by
  obtain ⟨between, steps, rest⟩ := bind_eq_some_iff.mp ran
  exact ((run_grown amounts steps).2.2.2 quiet).trans (switchsect_kept rest).2.2

/-! ### The object file -/

/-- The zeros that follow the bytes of a section in the object file. -/
def trailing (r : Assembled) (s : Nat) : List UInt8 :=
  List.replicate (os_size cfg r s - os_flen r s) 0

/-- The bytes written for a section are as many as its header says, and with zeros up to its size
they are its contents and commons. -/
def Accounted (cfg : Config) (program : List Event) (r : Assembled) (s : Nat) : Prop :=
  (r.out s).length = os_flen r s ∧
    r.out s ++ @trailing cfg r s =
      contents cfg program s ++ List.replicate (cfg.comm s) 0

theorem uint32_eq {k : Nat} (same : n = k) (small : k < 2 ^ 32) : uint32 n = k := by
  subst same
  rw [uint32, Int.emod_eq_of_lt (by omega) (by omega)]
  rfl

end

/-- The delayed zeros of a program are accounted for when its amounts are numbers of bytes, and its
sections have their addresses in `ADDR_T` and their sizes in the header. -/
theorem delayed_zeros_accounted {cfg : Config} {program : List Event} {r : Assembled}
    (assembled : assemble cfg program = some r)
    (amounts : ∀ event ∈ program, event.Amount cfg.addr)
    (second : ∀ s, Room cfg.addr (r.second.sect s).s_base (contents cfg program s).length)
    (third : ∀ s, Room cfg.addr (r.header.sect s).s_base (contents cfg program s).length)
    (header : ∀ s, (contents cfg program s).length + cfg.comm s < 2 ^ 32) (s : Nat) :
    Accounted cfg program r s := by
  obtain ⟨first, pass1, rest⟩ := Option.bind_eq_some_iff.mp assembled
  obtain ⟨placed, based, rest⟩ := Option.bind_eq_some_iff.mp rest
  obtain ⟨ended, pass2, rest⟩ := Option.bind_eq_some_iff.mp rest
  obtain ⟨replaced, rebased, rest⟩ := Option.bind_eq_some_iff.mp rest
  obtain ⟨last, pass3, same⟩ := Option.bind_eq_some_iff.mp rest
  cases same
  obtain ⟨steps1, ran1, closed1⟩ := Option.bind_eq_some_iff.mp pass1
  obtain ⟨grown, legal, origin, -⟩ := run_grown amounts ran1
  obtain ⟨kept, nowhere, -⟩ := switchsect_kept closed1
  have pos : ∀ s, 0 < (first.sect s).s_lign := fun s =>
    (kept.lign s).symm ▸ grown.positive s cfg.sect_pos
  have zero : cfg.asld = false → ∀ s, (first.sect s).s_base = 0 := fun separate s =>
    (kept.base s).trans (origin separate s)
  have moved := bases_rebased based
  have lign2 : (fun s => (steps1.sect s).s_lign) = fun s => (placed.sect s).s_lign :=
    funext fun s => ((moved.lign s).trans (kept.lign s)).symm
  rw [lign2] at legal
  have silent1 := onePass_silent (by decide) amounts pass1
  -- the delayed machine is the same in both later passes
  have filled : ∀ s, (program.foldl (Delayed.step cfg) .start).contents s =
      contents cfg program s := fun s =>
    congrFun (congrArg Contents.bytes (Delayed.run_filled program .start)) s
  have start2 : Tracks cfg .PASS_2 _ _ (clear placed) .start :=
    clear_tracks (moved.dotsct.trans nowhere) (moved.olddottyp.trans silent1.2)
      (moved.out.trans silent1.1)
  have end2 := start2.onePass (by decide) amounts legal
    (fun s known => bases_divides pos zero based known) pass2
    (fun s => (filled s).symm ▸ second s)
  have again := bases_rebased rebased
  have silent2 := onePass_silent (by decide) amounts pass2
  have pos2 : ∀ s, 0 < (ended.sect s).s_lign := by
    intro s
    rw [end2.aligned, moved.lign]
    exact pos s
  have zero2 : cfg.asld = false → ∀ s, (ended.sect s).s_base = 0 := by
    intro separate s
    rw [end2.placed, bases_origin separate based]
    exact zero separate s
  have lign3 : (fun s => (placed.sect s).s_lign) = fun s => (replaced.sect s).s_lign :=
    funext fun s => ((again.lign s).trans (end2.aligned s)).symm
  rw [lign3] at legal
  have start3 : Tracks cfg .PASS_3 _ _ (clear replaced) .start :=
    clear_tracks (again.dotsct.trans end2.current)
      (again.olddottyp.trans (silent2.2.trans (moved.olddottyp.trans silent1.2)))
      (again.out.trans (silent2.1.trans (moved.out.trans silent1.1)))
  have end3 := start3.onePass (by decide) amounts legal
    (fun s known => bases_divides pos2 zero2 rebased known) pass3
    (fun s => (filled s).symm ▸ third s)
  have bytes : last.out s = (program.foldl (Delayed.step cfg) .start).written s :=
    congrFun (end3.out rfl) s
  have size : (replaced.sect s).s_size = (contents cfg program s).length := by
    rw [again.size, end2.size s nofun]
    exact congrArg (fun c : List UInt8 => (c.length : Int)) (filled s)
  have pending : (replaced.sect s).s_zero =
      (program.foldl (Delayed.step cfg) .start).pending s := by
    rw [again.zero, end2.zero]
  generalize program.foldl (Delayed.step cfg) .start = d at bytes pending filled
  have split := filled s
  have lengths : (contents cfg program s).length = (d.written s).length + d.pending s := by
    rw [← split, Delayed.contents, List.length_append, List.length_replicate]
  have small := header s
  have flen : os_flen ⟨clear placed, replaced, last.out⟩ s = (d.written s).length :=
    uint32_eq (by rw [size, pending, lengths]; omega) (by omega)
  have full : os_size cfg ⟨clear placed, replaced, last.out⟩ s =
      (contents cfg program s).length + cfg.comm s :=
    uint32_eq (by rw [size]; omega) small
  have more : os_size cfg ⟨clear placed, replaced, last.out⟩ s -
      os_flen ⟨clear placed, replaced, last.out⟩ s = d.pending s + cfg.comm s := by
    rw [full, flen, lengths]
    omega
  refine ⟨?_, ?_⟩
  · rw [flen]
    exact congrArg List.length bytes
  · rw [trailing, more, ← split, Delayed.contents, List.append_assoc,
      List.replicate_append_replicate]
    exact congrArg (· ++ _) bytes

theorem assembled_origin {cfg : Config} {program : List Event} {r : Assembled}
    (assembled : assemble cfg program = some r)
    (amounts : ∀ event ∈ program, event.Amount cfg.addr) (separate : cfg.asld = false) (s : Nat) :
    (r.second.sect s).s_base = 0 ∧ (r.header.sect s).s_base = 0 := by
  obtain ⟨first, pass1, rest⟩ := bind_eq_some_iff.mp assembled
  obtain ⟨placed, based, rest⟩ := bind_eq_some_iff.mp rest
  obtain ⟨ended, pass2, rest⟩ := bind_eq_some_iff.mp rest
  obtain ⟨replaced, rebased, rest⟩ := bind_eq_some_iff.mp rest
  obtain ⟨last, -, same⟩ := bind_eq_some_iff.mp rest
  cases same
  have kept : ∀ {pass : Pass} {st st' : State}, onePass cfg pass program st = some st' →
      (st'.sect s).s_base = (st.sect s).s_base := by
    intro pass st st' ran
    obtain ⟨between, steps, closed⟩ := bind_eq_some_iff.mp ran
    exact ((switchsect_kept closed).1.base s).trans ((run_grown amounts steps).2.2.1 separate s)
  have second : (placed.sect s).s_base = 0 := by
    rw [bases_origin separate based]
    exact kept pass1
  refine ⟨second, ?_⟩
  rw [bases_origin separate rebased]
  exact (kept pass2).trans second

def small : Config where
  asld := false
  addr := .unsignedShort
  alignword := 2
  alignsect := 1
  nsect := 2
  comm _ := 0
  word_pos := by decide
  word_fits := rfl
  sect_pos := by decide

def gaps : List Event :=
  [.sect 0, .code 2 [1], .align 4, .sect 1, .space 3, .sect 0, .code 1 [2], .space 5]

/-- Two sections with gaps, entered in turn. -/
theorem delayed_zeros_accounted_gaps :
    ∃ r, assemble small gaps = some r ∧ r.out 0 = [1, 0, 0, 0, 2] ∧ r.out 1 = [] ∧
      ∀ s, Accounted small gaps r s := by
  have written : (assemble small gaps).map (fun r => (r.out 0, r.out 1)) =
      some ([1, 0, 0, 0, 2], []) := by decide +kernel
  obtain ⟨r, assembled, bytes⟩ := Option.map_eq_some_iff.mp written
  obtain ⟨first, second⟩ := Prod.mk.inj bytes
  refine ⟨r, assembled, first, second, ?_⟩
  have amounts : ∀ event ∈ gaps, event.Amount small.addr := by
    simp [gaps, Event.Amount, small, AddrT.convert]
  have lengths : ∀ s, (contents small gaps s).length ≤ 10 := by
    intro s
    match s with
    | 0 => decide
    | 1 => decide
    | _ + 2 => simp [contents, gaps, Contents.write, Contents.append]
  have room : ∀ {base : Int} {s : Nat}, base = 0 →
      Room small.addr base (contents small gaps s).length := by
    intro base s zero
    subst zero
    exact Room.mono ⟨Int.le_refl 0, rfl⟩ (lengths s)
  refine delayed_zeros_accounted assembled amounts (fun s => room ?_) (fun s => room ?_)
    fun s => ?_
  · exact (assembled_origin assembled amounts rfl s).1
  · exact (assembled_origin assembled amounts rfl s).2
  · exact (Nat.add_le_add_right (lengths s) 0).trans_lt (by decide)

def negative : List Event := [.sect 0, .code 1 [7], .space (-1)]

def large : List Event := [.sect 0, .space 65536, .code 1 [7]]

/-- A negative amount spoils the number of bytes in the header, and zeros that leave `ADDR_T` are
lost. -/
theorem delayed_zeros_lost :
    (∃ r, assemble small negative = some r ∧ r.out 0 = [7] ∧ os_flen r 0 = 4294901761 ∧
      ¬ Accounted small negative r 0) ∧
    ∃ r, assemble small large = some r ∧ r.out 0 = [7] ∧ os_size small r 0 = 1 ∧
      ¬ Accounted small large r 0 := by
  have first : (assemble small negative).map (fun r => (r.out 0, os_flen r 0)) =
      some ([7], 4294901761) := by decide +kernel
  have second : (assemble small large).map (fun r => (r.out 0, os_size small r 0)) =
      some ([7], 1) := by decide +kernel
  obtain ⟨r, assembled, same⟩ := Option.map_eq_some_iff.mp first
  obtain ⟨r', assembled', same'⟩ := Option.map_eq_some_iff.mp second
  obtain ⟨out, flen⟩ := Prod.mk.inj same
  obtain ⟨out', size⟩ := Prod.mk.inj same'
  refine ⟨⟨r, assembled, out, flen, fun accounted => ?_⟩, r', assembled', out', size,
    fun accounted => ?_⟩
  · have number := accounted.1
    rw [out, flen] at number
    exact absurd number (by decide)
  · have bytes : ∀ amount : Int, contents small [.sect 0, .space amount, .code 1 [7]] 0 =
        List.replicate amount.toNat 0 ++ [7] := by
      intro amount
      simp [contents, Contents.write, Contents.append]
    have lengths := congrArg List.length accounted.2
    rw [large, bytes, trailing, out', size] at lengths
    simp only [List.length_append, List.length_replicate, List.length_singleton] at lengths
    omega

end AckFormal.As.DelayedZeros
