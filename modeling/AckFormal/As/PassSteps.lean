import AckFormal.As.Passes

/-!
# What one statement does to the layout

In every pass a statement that fills a section moves the location counter by what
it emits and by its gap.  The first pass moves it by the largest size the statement
can have, and the second pass adds to the gain what it saves on that.
-/

namespace AckFormal.As.Passes

theorem addrT_of_range {v : Int} (low : 0 ≤ v) (high : v < 65536) : (addrT v : Int) = v := by
  unfold addrT
  omega

theorem fitb_iff {x : Int} : fitb x = true ↔ -128 ≤ x ∧ x ≤ 127 := by
  simp only [fitb, Bool.and_eq_true, decide_eq_true_eq]
  omega

def State.loc (st : State) (s : Sec) : Nat :=
  if st.dotsct = some s then st.dotval else (st.sects s).size

variable {ip opc : Nat} {st st' : State} {pass : Pass} {bflag : Bool} {tr : Trace} {bytes : Int}
  {stmt : Stmt}

@[simp] theorem setItem_self (st : State) (ip : Nat) (item : Item) :
    (st.setItem ip item).items ip = item := by
  simp [State.setItem]

theorem setItem_of_ne {other : Nat} (distinct : other ≠ ip) (st : State) (item : Item) :
    (st.setItem ip item).items other = st.items other := by
  simp [State.setItem, distinct]

def Stmt.fills : Stmt → Bool
  | .sect _ | .label _ => false
  | _ => true

def Stmt.largest : Stmt → Int
  | .code bytes => bytes
  | .align bytes => alignBytes bytes - 1
  | .space bytes => bytes
  | .branch opc _ => if isLoop opc then 2 else if opc = 0o353 then 3 else 5
  | .sect _ | .label _ => 0

def Trace.width (tr : Trace) : Int := tr.emitted + tr.gap

theorem width_gap (gap : Int) : ({ gap } : Trace).width = gap := by simp [Trace.width]

/-- The location counter moved by `w` and the gain grew by `g`; both only in the
current section. -/
structure Moved (st st' : State) (w g : Int) : Prop where
  dotsct : st'.dotsct = st.dotsct
  dotval : 0 ≤ w → st.dotval + w < 65536 → (st'.dotval : Int) = st.dotval + w
  size : ∀ s, (st'.sects s).size = (st.sects s).size
  gain : ∀ s, st.dotsct = some s → 0 ≤ g → (st.sects s).gain + g < 65536 →
    ((st'.sects s).gain : Int) = (st.sects s).gain + g
  otherGain : ∀ s, st.dotsct ≠ some s → (st'.sects s).gain = (st.sects s).gain
  items : st'.items = st.items

namespace Moved

theorem refl (st : State) : Moved st st 0 0 :=
  ⟨rfl, fun _ _ => by omega, fun _ => rfl, fun _ _ _ _ => by omega, fun _ _ => rfl, rfl⟩

theorem trans {st mid st' : State} {w v g h : Int} (first : Moved st mid w g)
    (second : Moved mid st' v h) (wPos : 0 ≤ w) (vPos : 0 ≤ v) (gPos : 0 ≤ g) (hPos : 0 ≤ h) :
    Moved st st' (w + v) (g + h) := by
  refine ⟨second.dotsct.trans first.dotsct, ?_, fun s => (second.size s).trans (first.size s),
    ?_, ?_, second.items.trans first.items⟩
  · intro _ bound
    have one := first.dotval wPos (by omega)
    have two := second.dotval vPos (by omega)
    omega
  · intro s here _ bound
    have one := first.gain s here gPos (by omega)
    have two := second.gain s (first.dotsct.trans here) hPos (by omega)
    omega
  · intro s elsewhere
    rw [second.otherGain s (by rwa [first.dotsct]), first.otherGain s elsewhere]

/-- The section table changed in the current section only. -/
theorem of_setSect {st st' : State} {s : Sec} {sp : Sect} {w g : Int} (here : st.dotsct = some s)
    (dotsct : st'.dotsct = st.dotsct) (items : st'.items = st.items)
    (sects : st'.sects = Function.update st.sects s sp) (size : sp.size = (st.sects s).size)
    (dotval : 0 ≤ w → st.dotval + w < 65536 → (st'.dotval : Int) = st.dotval + w)
    (gain : 0 ≤ g → (st.sects s).gain + g < 65536 → (sp.gain : Int) = (st.sects s).gain + g) :
    Moved st st' w g := by
  refine ⟨dotsct, dotval, ?_, ?_, ?_, items⟩
  · intro t
    by_cases same : t = s
    · subst same
      simp [sects, size]
    · simp [sects, same]
  · intro t current gPos bound
    obtain rfl : s = t := Option.some.inj (here.symm.trans current)
    simpa [sects] using gain gPos bound
  · intro t elsewhere
    have other : t ≠ s := fun same => elsewhere (same ▸ here)
    simp [sects, other]

end Moved

theorem bind_ok {α β : Type} {x : Except Stop α} {f : α → Except Stop β} {b : β}
    (run : x >>= f = .ok b) : ∃ a, x = .ok a ∧ f a = .ok b := by
  cases x with
  | error e => cases run
  | ok a => exact ⟨a, rfl, run⟩

theorem emit_some {n : Nat} (run : emit n st = .ok st') :
    Moved st st' n 0 ∧ st'.decisions = st.decisions ∧ st'.bits = st.bits := by
  induction n generalizing st with
  | zero =>
    cases run
    exact ⟨Moved.refl _, rfl, rfl⟩
  | succ n ih =>
    cases here : st.dotsct with
    | none => simp [emit, here] at run
    | some s =>
      simp only [emit, here] at run
      obtain ⟨rest, decisions, bits⟩ := ih run
      have first : Moved st { st.setSect s { st.sects s with zero := 0 } with
          dotval := addrT (st.dotval + 1) } 1 0 :=
        Moved.of_setSect here rfl rfl rfl rfl (fun _ bound => addrT_of_range (by omega) bound)
          (fun _ _ => by simp)
      have both := first.trans rest (by omega) (by omega) (by omega) (by omega)
      rw [Int.add_comm] at both
      exact ⟨both, decisions, bits⟩

/-! ## Branches -/

/-- The answer of `small`, in every pass the same function of the test and the table. -/
def decision (pass : Pass) (bflag fitsmall : Bool) (st : State) : Bool :=
  !bflag && (st.decisions != bitLimit) &&
    (match pass with
    | .pass1 => false
    | .pass2 => fitsmall
    | .pass3 => st.bits st.decisions)

structure Decided (pass : Pass) (bflag fitsmall : Bool) (gain : Int) (st st' : State)
    (answer asserted : Bool) : Prop where
  answered : answer = decision pass bflag fitsmall st
  moved : Moved st st' 0 (if pass = .pass2 ∧ answer = true then gain else 0)
  decisions : st'.decisions = st.decisions + (if bflag then 0 else 1)
  bits : st'.bits =
    if pass = .pass2 ∧ answer = true then Function.update st.bits st.decisions true else st.bits
  sound : asserted = true ∨ (pass = .pass3 ∧ fitsmall = false ∧ answer = true)

theorem moved_decisions (st : State) (n : Nat) : Moved st { st with decisions := n } 0 0 :=
  ⟨rfl, fun _ _ => by simp, fun _ => rfl, fun _ _ _ _ => by simp, fun _ _ => rfl, rfl⟩

/-- What `small` answers, and the gain it counts. -/
theorem small_some {fitsmall answer asserted : Bool} {gain : Int} (gainPos : 0 ≤ gain)
    (run : small pass bflag fitsmall gain st = .ok (st', answer, asserted)) :
    Decided pass bflag fitsmall gain st st' answer asserted := by
  unfold small at run
  split at run
  · cases run
  rename_i s here
  split at run
  · rename_i off
    cases run
    exact ⟨by simp [decision, off], by simpa using Moved.refl st, by simp [off], by simp,
      Or.inl rfl⟩
  rename_i on
  split at run
  · rename_i full
    split at run
    · cases run
    · cases run
      exact ⟨by simp [decision, full], by simpa using moved_decisions st _, by simp [on], by simp,
        Or.inl rfl⟩
  rename_i room
  split at run
  · cases run
  cases pass with
  | pass1 =>
    cases run
    exact ⟨by simp [decision], by simpa using moved_decisions st _, by simp [on], by simp,
      Or.inl rfl⟩
  | pass2 =>
    dsimp only at run
    split at run
    · rename_i fits
      cases run
      refine ⟨by simp [decision, on, room, fits], ?_, by simp [on, State.setSect],
        by simp, Or.inl rfl⟩
      exact Moved.of_setSect here rfl rfl rfl rfl (fun _ _ => by simp [State.setSect])
        (fun pos bound => addrT_of_range (by omega) bound)
    · rename_i fits
      cases run
      exact ⟨by simp [decision, fits], by simpa using moved_decisions st _, by simp [on], by simp,
        Or.inl rfl⟩
  | pass3 =>
    cases run
    refine ⟨by simp [decision, on, room], by simpa using moved_decisions st _, by simp [on],
      by simp, ?_⟩
    cases fitsmall with
    | true => exact Or.inl rfl
    | false =>
      cases recorded : st.bits st.decisions with
      | false => exact Or.inl rfl
      | true => exact Or.inr ⟨rfl, rfl, rfl⟩

/-- A branch is a `loop`, which is always short, or is decided by `small`. -/
inductive Branched (pass : Pass) (bflag : Bool) (opc ip : Nat) (st st' : State) (tr : Trace) :
    Prop where
  | loop (loops : isLoop opc = true)
      (inReach : pass = .pass3 → (reach pass opc ip st).2 = true)
      (emitted : emit 2 st = .ok st')
      (trace : tr = { emitted := 2, jump := some ⟨true, (reach pass opc ip st).1⟩ })
  | decided (notLoop : isLoop opc = false) (mid : State) (answer asserted : Bool) (room : Nat)
      (disp : Int)
      (decided : Decided pass bflag (reach pass opc ip st).2 (if opc = 0o353 then 1 else 3)
        st mid answer asserted)
      (emitted : emit room mid = .ok st')
      (short : answer = true → room = 2 ∧ disp = (reach pass opc ip st).1)
      (long : answer = false → (room : Int) = (Stmt.branch opc ip).largest)
      (trace : tr = { emitted := room, jump := some ⟨answer, disp⟩, asserted := asserted })

/-- What a branch leaves in each of the passes. -/
theorem branch_some (run : branch pass bflag opc ip st = .ok (st', tr)) :
    Branched pass bflag opc ip st st' tr := by
  unfold branch at run
  dsimp only at run
  split at run
  · rename_i loop
    obtain ⟨_, fits, run⟩ := bind_ok run
    obtain ⟨mid, emitted, run⟩ := bind_ok run
    cases run
    refine .loop loop (fun third => ?_) emitted rfl
    unfold fit at fits
    split at fits
    · cases fits
    · rename_i passed
      cases sm : (reach pass opc ip st).2 with
      | true => rfl
      | false => exact absurd ⟨sm, third⟩ passed
  · rename_i notLoop
    have notLoop : isLoop opc = false := by simpa using notLoop
    obtain ⟨⟨mid, answer, asserted⟩, answered, run⟩ := bind_ok run
    have decided := small_some (by split <;> omega) answered
    dsimp only at run
    split at run
    · rename_i short
      obtain ⟨last, emitted, run⟩ := bind_ok run
      cases run
      exact .decided notLoop mid answer asserted 2 _ decided emitted (fun _ => ⟨rfl, rfl⟩)
        (fun long => by simp [long] at short) (by simp [short])
    · rename_i long
      have long : answer = false := by simpa using long
      split at run
      · rename_i jmp
        obtain ⟨last, emitted, run⟩ := bind_ok run
        cases run
        refine .decided notLoop mid answer asserted 3 ((reach pass opc ip st).1 - 1) decided emitted
          (fun short => by simp [long] at short) (fun _ => ?_) (by rw [long])
        rw [Stmt.largest, notLoop, if_neg (by decide), if_pos jmp]
        rfl
      · rename_i notJmp
        obtain ⟨last, emitted, run⟩ := bind_ok run
        cases run
        refine .decided notLoop mid answer asserted 5 ((reach pass opc ip st).1 - 3) decided emitted
          (fun short => by simp [long] at short) (fun _ => ?_) (by rw [long])
        rw [Stmt.largest, notLoop, if_neg (by decide), if_neg notJmp]
        rfl

/-! ## Statements -/

theorem alignGap_range (pass : Pass) (dotval : Nat) (pos : 0 < bytes) :
    0 ≤ alignGap pass dotval bytes ∧ alignGap pass dotval bytes ≤ bytes - 1 ∧
      (pass = .pass1 → alignGap pass dotval bytes = bytes - 1) := by
  unfold alignGap
  split
  · exact ⟨by omega, by omega, fun _ => rfl⟩
  · rename_i later
    have low := Int.tmod_nonneg (a := dotval) bytes (by omega)
    have high := Int.tmod_lt_of_pos (dotval : Int) pos
    dsimp only
    split
    · exact ⟨by omega, by omega, fun first => absurd first later⟩
    · exact ⟨by omega, by omega, fun first => absurd first later⟩

/-- The room a statement takes, and how the second pass counts what it saves. -/
structure Filled (pass : Pass) (stmt : Stmt) (st st' : State) (tr : Trace) : Prop where
  pos : 0 ≤ tr.width
  le : tr.width ≤ stmt.largest
  first : pass = .pass1 → tr.width = stmt.largest
  moved : Moved st st' tr.width (if pass = .pass2 then stmt.largest - tr.width else 0)

theorem align_filled (nonneg : 0 ≤ (Stmt.align bytes).largest)
    (run : align pass bytes st = .ok (st', tr)) : Filled pass (.align bytes) st st' tr := by
  simp only [Stmt.largest] at nonneg
  unfold align at run
  split at run
  · cases run
  · rename_i s here
    obtain ⟨lign, -, run⟩ := bind_ok run
    have some : 0 < alignBytes bytes := by omega
    have range := alignGap_range pass st.dotval some
    cases run
    refine ⟨?_, ?_, ?_, ?_⟩
    · simpa [Trace.width] using range.1
    · simpa [Trace.width, Stmt.largest] using range.2.1
    · simpa [Trace.width, Stmt.largest] using range.2.2
    · refine Moved.of_setSect here rfl rfl rfl rfl ?_ ?_
      · intro pos bound
        rw [width_gap] at bound ⊢
        exact addrT_of_range (by omega) bound
      · rw [width_gap]
        split
        · exact fun pos bound => addrT_of_range (by omega) bound
        · simp

theorem space_filled (nonneg : 0 ≤ bytes) (run : space bytes st = .ok (st', tr)) :
    Filled pass (.space bytes) st st' tr := by
  unfold space at run
  split at run
  · cases run
  · rename_i s here
    cases run
    refine ⟨by simpa [Trace.width] using nonneg, by simp [Trace.width, Stmt.largest],
      fun _ => by simp [Trace.width, Stmt.largest], ?_⟩
    refine Moved.of_setSect here rfl rfl rfl rfl ?_ ?_
    · intro pos bound
      rw [width_gap] at bound ⊢
      exact addrT_of_range (by omega) bound
    · simp [Trace.width, Stmt.largest]

theorem saving_eq (notLoop : isLoop opc = false) (ip : Nat) :
    (if opc = 0o353 then 1 else 3 : Int) = (Stmt.branch opc ip).largest - 2 := by
  simp only [Stmt.largest, notLoop]
  split <;> rfl

/-- A branch takes no more room than its longest form. -/
theorem branch_filled (run : branch pass bflag opc ip st = .ok (st', tr)) :
    Filled pass (.branch opc ip) st st' tr := by
  cases branch_some run with
  | loop loops inReach emitted trace =>
    subst trace
    have largest : (Stmt.branch opc ip).largest = 2 := by simp [Stmt.largest, loops]
    have moved := (emit_some emitted).1
    exact ⟨by simp [Trace.width], by simp [Trace.width, largest],
      fun _ => by simp [Trace.width, largest], by simpa [Trace.width, largest] using moved⟩
  | decided notLoop mid answer asserted room disp decided emitted short long trace =>
    have saving := saving_eq notLoop ip
    have moved := decided.moved.trans (emit_some emitted).1 (by omega) (by omega)
      (by split <;> omega) (by omega)
    have width : tr.width = room := by simp [trace, Trace.width]
    rw [Int.zero_add, Int.add_zero, saving] at moved
    cases answered : answer with
    | true =>
      obtain ⟨rfl, -⟩ := short answered
      have later : pass ≠ .pass1 := by
        intro first
        have decision := decided.answered
        simp [answered, first, Passes.decision] at decision
      refine ⟨by omega, by omega, fun first => absurd first later, ?_⟩
      rw [width]
      simpa [answered] using moved
    | false =>
      have full := long answered
      refine ⟨by omega, by omega, fun _ => by omega, ?_⟩
      rw [width, full, Int.sub_self]
      simpa [answered, full] using moved

theorem step_filled (fills : stmt.fills = true) (nonneg : 0 ≤ stmt.largest)
    (run : step pass bflag stmt st = .ok (st', tr)) : Filled pass stmt st st' tr := by
  cases stmt with
  | sect s => cases fills
  | label ip => cases fills
  | code bytes =>
    obtain ⟨mid, emitted, run⟩ := bind_ok run
    cases run
    have moved := (emit_some emitted).1
    exact ⟨by simp [Trace.width], by simp [Trace.width, Stmt.largest],
      fun _ => by simp [Trace.width, Stmt.largest],
      by simpa [Trace.width, Stmt.largest] using moved⟩
  | align bytes => exact align_filled nonneg run
  | space bytes => exact space_filled nonneg run
  | branch opc ip => exact branch_filled run

/-! ## Labels and sections -/

theorem label_some (run : step pass bflag (.label ip) st = .ok (st', tr)) :
    ∃ s, st.dotsct = some s ∧ st' = st.setItem ip ⟨some s, st.dotval⟩ ∧
      (pass = .pass1 → (st.items ip).typ = none) ∧
      tr = { asserted := (pass ≠ .pass3 || (st.items ip).valu = st.dotval) &&
        (pass ≠ .pass2 || (addrT (st.items ip).valu : Int) - st.dotval = (st.sects s).gain) } := by
  obtain ⟨_, declared, run⟩ := bind_ok run
  unfold newlabel at run
  split at run
  · cases run
  · rename_i s here
    cases run
    refine ⟨s, here, rfl, ?_, rfl⟩
    intro first
    unfold newident at declared
    split at declared
    · cases declared
    · rename_i fresh
      simpa [first] using fresh

theorem sect_some {s : Sec} (run : step pass bflag (.sect s) st = .ok (st', tr)) :
    st' = switchsect (some s) st ∧ tr = {} := by
  cases run
  exact ⟨rfl, rfl⟩

theorem switchsect_loc (s t : Sec) (st : State) :
    (switchsect (some s) st).loc t = st.loc t := by
  cases here : st.dotsct with
  | none => by_cases same : s = t <;> simp [switchsect, State.loc, here, same]
  | some cur =>
    by_cases same : s = t
    · subst same
      by_cases current : cur = s
      · subst current
        simp [switchsect, State.loc, here, State.setSect]
      · simp [switchsect, State.loc, here, State.setSect, current, Ne.symm current]
    · by_cases current : cur = t
      · subst current
        simp [switchsect, State.loc, here, State.setSect, same]
      · simp [switchsect, State.loc, here, State.setSect, same, current, Ne.symm current]

theorem switchsect_gain (newtyp : Option Sec) (t : Sec) (st : State) :
    ((switchsect newtyp st).sects t).gain = (st.sects t).gain := by
  cases here : st.dotsct with
  | none => cases newtyp <;> simp [switchsect, here]
  | some cur =>
    by_cases current : t = cur
    · subst current
      cases newtyp <;> simp [switchsect, here, State.setSect]
    · cases newtyp <;> simp [switchsect, here, State.setSect, current]

@[simp] theorem switchsect_items (newtyp : Option Sec) (st : State) :
    (switchsect newtyp st).items = st.items := by
  cases here : st.dotsct <;> cases newtyp <;> simp [switchsect, here, State.setSect]

@[simp] theorem switchsect_decisions (newtyp : Option Sec) (st : State) :
    (switchsect newtyp st).decisions = st.decisions := by
  cases here : st.dotsct <;> cases newtyp <;> simp [switchsect, here, State.setSect]

@[simp] theorem switchsect_bits (newtyp : Option Sec) (st : State) :
    (switchsect newtyp st).bits = st.bits := by
  cases here : st.dotsct <;> cases newtyp <;> simp [switchsect, here, State.setSect]

@[simp] theorem switchsect_dotsct (newtyp : Option Sec) (st : State) :
    (switchsect newtyp st).dotsct = newtyp := by
  cases newtyp <;> rfl

/-! ## The bit table -/

def Stmt.decisions (bflag : Bool) : Stmt → Nat
  | .branch opc _ => if isLoop opc || bflag then 0 else 1
  | _ => 0

/-- Only the second pass writes the table, at the place of the decision. -/
structure Recorded (pass : Pass) (bflag : Bool) (stmt : Stmt) (st st' : State) : Prop where
  decisions : st'.decisions = st.decisions + stmt.decisions bflag
  bits : ∀ i, st'.bits i ≠ st.bits i →
    pass = .pass2 ∧ i = st.decisions ∧ stmt.decisions bflag = 1

theorem Recorded.of_eq (none : stmt.decisions bflag = 0) (decisions : st'.decisions = st.decisions)
    (bits : st'.bits = st.bits) : Recorded pass bflag stmt st st' :=
  ⟨by rw [none, decisions, Nat.add_zero], fun i changed => absurd (congrFun bits i) changed⟩

theorem branch_recorded (run : branch pass bflag opc ip st = .ok (st', tr)) :
    Recorded pass bflag (.branch opc ip) st st' := by
  cases branch_some run with
  | loop loops inReach emitted trace =>
    obtain ⟨-, decisions, bits⟩ := emit_some emitted
    exact .of_eq (by simp [Stmt.decisions, loops]) decisions bits
  | decided notLoop mid answer asserted room disp decided emitted short long trace =>
    obtain ⟨-, decisions, bits⟩ := emit_some emitted
    refine ⟨?_, ?_⟩
    · rw [decisions, decided.decisions]
      simp [Stmt.decisions, notLoop]
    · intro i changed
      rw [bits, decided.bits] at changed
      split at changed
      · rename_i second
        have on : bflag = false := by
          have decision := decided.answered
          rw [second.2] at decision
          cases bflag with
          | true => simp [Passes.decision] at decision
          | false => rfl
        refine ⟨second.1, ?_, by simp [Stmt.decisions, notLoop, on]⟩
        by_contra other
        exact changed (Function.update_of_ne other _ _)
      · exact absurd rfl changed

theorem step_recorded (run : step pass bflag stmt st = .ok (st', tr)) :
    Recorded pass bflag stmt st st' := by
  cases stmt with
  | sect s =>
    obtain ⟨rfl, -⟩ := sect_some run
    exact .of_eq rfl (by simp) (by simp)
  | label ip =>
    obtain ⟨s, -, rfl, -⟩ := label_some run
    exact .of_eq rfl rfl rfl
  | code bytes =>
    obtain ⟨mid, emitted, run⟩ := bind_ok run
    cases run
    exact .of_eq rfl (emit_some emitted).2.1 (emit_some emitted).2.2
  | align bytes =>
    simp only [step, align] at run
    split at run
    · cases run
    · obtain ⟨lign, -, run⟩ := bind_ok run
      cases run
      exact .of_eq rfl rfl rfl
  | space bytes =>
    simp only [step, space] at run
    split at run
    · cases run
    · cases run
      exact .of_eq rfl rfl rfl
  | branch opc ip => exact branch_recorded run

end AckFormal.As.Passes
