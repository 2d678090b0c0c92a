import AckFormal.As.PassSteps
import Mathlib.Data.List.Forall2

/-!
# The passes agree

Statement by statement the second pass is below the first one by its gain, and the
third pass is where the second one was.  A label that is still ahead will come down
by at least the gain at hand, which is why a displacement that the second pass found
small stays small.  The one exception are `loop` and `jcxz`: nothing is saved on
them, and still three bytes are taken off their displacement before it is tested.
-/

namespace AckFormal.As.Passes

/-! ## Location counters -/

variable {st st' e : State} {rest : List Stmt} {stmt : Stmt} {bflag : Bool} {tr : Trace}
  {pass : Pass} {traces : List Trace}

theorem Moved.loc {w g : Int} (moved : Moved st st' w g) (pos : 0 ≤ w)
    (room : ∀ s, st.dotsct = some s → st.loc s + w < 65536) (s : Sec) :
    (st'.loc s : Int) = st.loc s + if st.dotsct = some s then w else 0 := by
  unfold State.loc
  rw [moved.dotsct]
  by_cases here : st.dotsct = some s
  · have bound := room s here
    rw [State.loc, if_pos here] at bound
    rw [if_pos here, if_pos here, if_pos here]
    exact moved.dotval pos bound
  · rw [if_neg here, if_neg here, if_neg here, moved.size, Int.add_zero]

theorem Moved.allGain {w g : Int} (moved : Moved st st' w g) (pos : 0 ≤ g)
    (room : ∀ s, st.dotsct = some s → (st.sects s).gain + g < 65536) (s : Sec) :
    ((st'.sects s).gain : Int) = (st.sects s).gain + if st.dotsct = some s then g else 0 := by
  by_cases here : st.dotsct = some s
  · rw [if_pos here]
    exact moved.gain s here pos (room s here)
  · rw [if_neg here, moved.otherGain s here, Int.add_zero]

theorem loc_current {s : Sec} (here : st.dotsct = some s) : st.loc s = st.dotval :=
  if_pos here

def extent (s : Sec) : Option Sec → List Stmt → Int
  | _, [] => 0
  | _, .sect t :: rest => extent s (some t) rest
  | cur, stmt :: rest => (if cur = some s then stmt.largest else 0) + extent s cur rest

/-- No statement takes less than no room, and in the first pass no section grows
beyond what its location counter holds. -/
structure Roomy (rest : List Stmt) (st : State) : Prop where
  nonneg : ∀ stmt ∈ rest, 0 ≤ stmt.largest
  bound : ∀ s, st.loc s + extent s st.dotsct rest < 65536

theorem extent_nonneg (nonneg : ∀ stmt ∈ rest, 0 ≤ stmt.largest) (s : Sec) (cur : Option Sec) :
    0 ≤ extent s cur rest := by
  induction rest generalizing cur with
  | nil => exact Int.le_refl _
  | cons stmt rest ih =>
    have first := nonneg stmt (by simp)
    have others := fun cur => ih (fun x member => nonneg x (by simp [member])) cur
    cases stmt with
    | sect t => exact others _
    | _ =>
      have tail := others cur
      simp only [extent]
      split <;> omega

theorem extent_fills (fills : stmt.fills = true) (s : Sec) (cur : Option Sec) (rest : List Stmt) :
    extent s cur (stmt :: rest) =
      (if cur = some s then stmt.largest else 0) + extent s cur rest := by
  cases stmt <;> first | rfl | cases fills

variable {rest : List Stmt}

theorem Roomy.head {stmt : Stmt} {st : State} (roomy : Roomy (stmt :: rest) st)
    (fills : stmt.fills = true) (s : Sec) (here : st.dotsct = some s) :
    st.loc s + stmt.largest < 65536 := by
  have bound := roomy.bound s
  have tail := extent_nonneg (fun x member => roomy.nonneg x (List.mem_cons_of_mem _ member)) s
    st.dotsct
  rw [extent_fills fills, if_pos here] at bound
  omega

theorem Roomy.tail (roomy : Roomy (stmt :: rest) st)
    (run : step .pass1 bflag stmt st = .ok (st', tr)) : Roomy rest st' := by
  refine ⟨fun x member => roomy.nonneg x (List.mem_cons_of_mem _ member), fun s => ?_⟩
  have bound := roomy.bound s
  cases fills : stmt.fills with
  | true =>
    have filled := step_filled fills (roomy.nonneg stmt (by simp)) run
    have loc := filled.moved.loc filled.pos
      (fun t here => by rw [filled.first rfl]; exact roomy.head fills t here) s
    rw [filled.first rfl] at loc
    rw [extent_fills fills] at bound
    rw [loc, filled.moved.dotsct]
    omega
  | false =>
    cases stmt with
    | sect t =>
      obtain ⟨rfl, -⟩ := sect_some run
      rw [switchsect_loc, switchsect_dotsct]
      exact bound
    | label ip =>
      obtain ⟨t, -, rfl, -⟩ := label_some run
      have same : extent s st.dotsct (.label ip :: rest) = extent s st.dotsct rest := by
        simp [extent, Stmt.largest]
      rw [same] at bound
      exact bound
    | _ => cases fills

/-! ## The first pass -/

theorem parse_cons (run : parse pass bflag (stmt :: rest) st = .ok (e, traces)) :
    ∃ mid tr others, step pass bflag stmt st = .ok (mid, tr) ∧
      parse pass bflag rest mid = .ok (e, others) ∧ traces = tr :: others := by
  obtain ⟨⟨mid, tr⟩, first, run⟩ := bind_ok run
  obtain ⟨⟨last, others⟩, tail, run⟩ := bind_ok run
  cases run
  exact ⟨mid, tr, others, first, tail, rfl⟩

theorem parse_nil (run : parse pass bflag [] st = .ok (e, traces)) : e = st ∧ traces = [] := by
  cases run
  exact ⟨rfl, rfl⟩

/-- A label that has been declared keeps its value in the first pass. -/
theorem step_declared {ip : Nat} (nonneg : 0 ≤ stmt.largest)
    (run : step .pass1 bflag stmt st = .ok (st', tr)) (declared : (st.items ip).typ ≠ none) :
    st'.items ip = st.items ip := by
  cases fills : stmt.fills with
  | true => rw [(step_filled fills nonneg run).moved.items]
  | false =>
    cases stmt with
    | sect t =>
      obtain ⟨rfl, -⟩ := sect_some run
      rw [switchsect_items]
    | label other =>
      obtain ⟨t, -, rfl, fresh, -⟩ := label_some run
      have distinct : ip ≠ other := by
        rintro rfl
        exact declared (fresh rfl)
      exact setItem_of_ne distinct st _
    | _ => cases fills

theorem parse_declared {ip : Nat} (nonneg : ∀ stmt ∈ rest, 0 ≤ stmt.largest)
    (run : parse .pass1 bflag rest st = .ok (e, traces)) (declared : (st.items ip).typ ≠ none) :
    e.items ip = st.items ip := by
  induction rest generalizing st traces with
  | nil =>
    obtain ⟨rfl, -⟩ := parse_nil run
    rfl
  | cons stmt rest ih =>
    obtain ⟨mid, tr, others, first, tail, -⟩ := parse_cons run
    have kept := step_declared (nonneg stmt (by simp)) first declared
    rw [ih (fun x member => nonneg x (by simp [member])) tail (by rwa [kept]), kept]

theorem parse_bits (other : pass ≠ .pass2) (run : parse pass bflag rest st = .ok (e, traces)) :
    e.bits = st.bits := by
  induction rest generalizing st traces with
  | nil =>
    obtain ⟨rfl, -⟩ := parse_nil run
    rfl
  | cons stmt rest ih =>
    obtain ⟨mid, tr, others, first, tail, -⟩ := parse_cons run
    rw [ih tail]
    funext i
    by_contra changed
    exact other ((step_recorded first).bits i changed).1

theorem pass1_asserted (run : step .pass1 bflag stmt st = .ok (st', tr)) : tr.asserted = true := by
  cases stmt with
  | sect t =>
    obtain ⟨-, rfl⟩ := sect_some run
    rfl
  | label ip =>
    obtain ⟨t, -, -, -, rfl⟩ := label_some run
    rfl
  | code bytes =>
    obtain ⟨mid, -, run⟩ := bind_ok run
    cases run
    rfl
  | align bytes =>
    simp only [step, align] at run
    split at run
    · cases run
    · obtain ⟨lign, -, run⟩ := bind_ok run
      cases run
      rfl
  | space bytes =>
    simp only [step, space] at run
    split at run
    · cases run
    · cases run
      rfl
  | branch opc ip =>
    cases branch_some run with
    | loop loops inReach emitted trace => rw [trace]
    | decided notLoop mid answer asserted room disp decided emitted short long trace =>
      rw [trace]
      rcases decided.sound with sound | ⟨third, -⟩
      · exact sound
      · cases third

/-! ## The second pass against the first -/

/-- The first and the second pass at the same statement; `end1` is the end of the
first pass. -/
structure Together (end1 st1 st2 : State) : Prop where
  dotsct : st2.dotsct = st1.dotsct
  loc : ∀ s, st1.loc s = st2.loc s + (st2.sects s).gain
  seen : ∀ ip s, (st1.items ip).typ = some s → (st2.items ip).typ = some s ∧
    (st2.items ip).valu ≤ st2.loc s ∧ (st2.items ip).valu ≤ (st1.items ip).valu
  unseen : ∀ ip, (st1.items ip).typ = none → st2.items ip = end1.items ip
  fresh : ∀ i, st2.decisions ≤ i → st2.bits i = false

namespace Together

variable {end1 st1 st1' st2 st2' : State} {bflag : Bool} {stmt : Stmt} {tr1 tr2 : Trace}

variable (together : Together end1 st1 st2)
include together

section

variable (room : ∀ s, st1.dotsct = some s → st1.loc s + stmt.largest < 65536)
  (filled1 : Filled .pass1 stmt st1 st1' tr1) (filled2 : Filled .pass2 stmt st2 st2' tr2)
include room filled1 filled2

/-- Both passes fill the current section; what the second one saves is its gain. -/
theorem fill (s : Sec) :
    (st1'.loc s : Int) = st1.loc s + (if st1.dotsct = some s then stmt.largest else 0) ∧
      (st2'.loc s : Int) = st2.loc s + (if st1.dotsct = some s then tr2.width else 0) ∧
      ((st2'.sects s).gain : Int) =
        (st2.sects s).gain + if st1.dotsct = some s then stmt.largest - tr2.width else 0 := by
  have pos := filled2.pos
  have le := filled2.le
  have moved1 := filled1.moved.loc filled1.pos (by rw [filled1.first rfl]; exact room) s
  have moved2 := filled2.moved.loc pos (fun t here => by
    have loc := together.loc t
    have bound := room t (by rwa [together.dotsct] at here)
    omega) s
  have gain := filled2.moved.allGain (by simp only [if_true]; omega) (fun t here => by
    have loc := together.loc t
    have bound := room t (by rwa [together.dotsct] at here)
    omega) s
  rw [filled1.first rfl] at moved1
  rw [together.dotsct] at moved2 gain
  exact ⟨moved1, moved2, gain⟩

theorem step_fill (recorded : Recorded .pass2 bflag stmt st2 st2') : Together end1 st1' st2' := by
  have pos := filled2.pos
  have filling := together.fill room filled1 filled2
  refine ⟨?_, ?_, ?_, ?_, ?_⟩
  · rw [filled2.moved.dotsct, filled1.moved.dotsct, together.dotsct]
  · intro s
    have loc := together.loc s
    obtain ⟨loc1, loc2, gain⟩ := filling s
    by_cases here : st1.dotsct = some s
    · rw [if_pos here] at loc1 loc2 gain
      omega
    · rw [if_neg here] at loc1 loc2 gain
      omega
  · intro ip s typ
    rw [filled1.moved.items] at typ
    obtain ⟨same, below, le⟩ := together.seen ip s typ
    obtain ⟨-, loc2, -⟩ := filling s
    rw [filled1.moved.items, filled2.moved.items]
    refine ⟨same, ?_, le⟩
    split at loc2 <;> omega
  · intro ip typ
    rw [filled1.moved.items] at typ
    rw [filled2.moved.items]
    exact together.unseen ip typ
  · intro i later
    rw [recorded.decisions] at later
    by_contra set
    have before := together.fresh i (by omega)
    obtain ⟨-, place, one⟩ := recorded.bits i (by rw [before]; exact set)
    omega

end

theorem step_sect (t : Sec) :
    Together end1 (switchsect (some t) st1) (switchsect (some t) st2) := by
  refine ⟨by simp, fun s => ?_, ?_, ?_, ?_⟩
  · simpa only [switchsect_loc, switchsect_gain] using together.loc s
  · simpa only [switchsect_items, switchsect_loc] using together.seen
  · simpa only [switchsect_items] using together.unseen
  · simpa only [switchsect_decisions, switchsect_bits] using together.fresh

/-- A label definition; `addrT` does not change the value of the first pass. -/
theorem step_label {ip : Nat} {s : Sec}
    (here : st1.dotsct = some s) (fresh : (st1.items ip).typ = none)
    (last : end1.items ip = ⟨some s, st1.dotval⟩) (room : (st1.dotval : Int) < 65536) :
    Together end1 (st1.setItem ip ⟨some s, st1.dotval⟩) (st2.setItem ip ⟨some s, st2.dotval⟩) ∧
      (addrT (st2.items ip).valu : Int) - st2.dotval = (st2.sects s).gain := by
  have here2 := together.dotsct.trans here
  have loc := together.loc s
  rw [loc_current here, loc_current here2] at loc
  refine ⟨⟨together.dotsct, together.loc, ?_, ?_, together.fresh⟩, ?_⟩
  · intro other t typ
    by_cases same : other = ip
    · subst same
      rw [setItem_self] at typ ⊢
      cases typ
      refine ⟨rfl, ?_, ?_⟩
      · change (st2.dotval : Int) ≤ (st2.loc s : Int)
        have loc2 := loc_current here2
        omega
      · rw [setItem_self]
        simp only
        omega
    · rw [setItem_of_ne same] at typ ⊢
      rw [setItem_of_ne same]
      exact together.seen other t typ
  · intro other typ
    by_cases same : other = ip
    · subst same
      rw [setItem_self] at typ
      cases typ
    · rw [setItem_of_ne same] at typ ⊢
      exact together.unseen other typ
  · rw [together.unseen ip fresh, last, addrT_of_range (by simp) room]
    omega

/-- One statement keeps the first two passes together. -/
theorem step (roomy : Roomy (stmt :: rest) st1)
    (run1 : Passes.step .pass1 bflag stmt st1 = .ok (st1', tr1))
    (run2 : Passes.step .pass2 bflag stmt st2 = .ok (st2', tr2))
    (last : ∀ ip, (st1'.items ip).typ ≠ none → end1.items ip = st1'.items ip) :
    Together end1 st1' st2' ∧ tr2.asserted = true := by
  have nonneg := roomy.nonneg stmt (by simp)
  cases fills : stmt.fills with
  | true =>
    refine ⟨together.step_fill (roomy.head fills) (step_filled fills nonneg run1)
      (step_filled fills nonneg run2) (step_recorded run2), ?_⟩
    cases stmt with
    | sect t => cases fills
    | label ip => cases fills
    | code bytes =>
      obtain ⟨mid, -, run⟩ := bind_ok run2
      cases run
      rfl
    | align bytes =>
      simp only [Passes.step, align] at run2
      split at run2
      · cases run2
      · obtain ⟨lign, -, run⟩ := bind_ok run2
        cases run
        rfl
    | space bytes =>
      simp only [Passes.step, space] at run2
      split at run2
      · cases run2
      · cases run2
        rfl
    | branch opc ip =>
      cases branch_some run2 with
      | loop loops inReach emitted trace => rw [trace]
      | decided notLoop mid answer asserted room disp decided emitted short long trace =>
        rw [trace]
        rcases decided.sound with sound | ⟨third, -⟩
        · exact sound
        · cases third
  | false =>
    cases stmt with
    | sect t =>
      obtain ⟨rfl, -⟩ := sect_some run1
      obtain ⟨rfl, rfl⟩ := sect_some run2
      exact ⟨together.step_sect t, rfl⟩
    | label ip =>
      obtain ⟨s, here, rfl, fresh, -⟩ := label_some run1
      obtain ⟨t, here2, rfl, -, rfl⟩ := label_some run2
      obtain rfl : s = t :=
        Option.some.inj (here.symm.trans (together.dotsct.symm.trans here2))
      have value : end1.items ip = ⟨some s, st1.dotval⟩ := by
        have kept := last ip (by simp)
        rwa [setItem_self] at kept
      have bound := roomy.bound s
      have tail := extent_nonneg roomy.nonneg s st1.dotsct
      rw [loc_current here] at bound
      obtain ⟨after, gains⟩ := together.step_label here (fresh rfl) value (by omega)
      exact ⟨after, by simp [gains]⟩
    | _ => cases fills

end Together

/-- What the rest of the second pass does to the labels: those seen stay as they
are, and those ahead come down by the gain at hand or more. -/
structure Ahead (st1 st2 end1 end2 : State) : Prop where
  seen : ∀ ip, (st1.items ip).typ ≠ none → end2.items ip = st2.items ip
  ahead : ∀ ip s, (st1.items ip).typ = none → (end1.items ip).typ = some s →
    (end2.items ip).typ = some s ∧ st2.loc s ≤ (end2.items ip).valu ∧
      (end2.items ip).valu + (st2.sects s).gain ≤ (end1.items ip).valu
  never : ∀ ip, (end1.items ip).typ = none → end2.items ip = end1.items ip
  bits : ∀ i, i < st2.decisions → end2.bits i = st2.bits i

namespace Ahead

variable {end1 end2 st1 st1' st2 st2' : State} {bflag : Bool} {stmt : Stmt} {tr1 tr2 : Trace}

/-- What is ahead of two passes, with one more statement in front. -/
theorem cons (ahead : Ahead st1' st2' end1 end2)
    (together : Together end1 st1 st2) (roomy : Roomy (stmt :: rest) st1)
    (last : ∀ ip, (st1'.items ip).typ ≠ none → end1.items ip = st1'.items ip)
    (run1 : step .pass1 bflag stmt st1 = .ok (st1', tr1))
    (run2 : step .pass2 bflag stmt st2 = .ok (st2', tr2)) : Ahead st1 st2 end1 end2 := by
  have nonneg := roomy.nonneg stmt (by simp)
  have recorded := step_recorded run2
  have bits : ∀ i, i < st2.decisions → end2.bits i = st2.bits i := by
    intro i earlier
    rw [ahead.bits i (by rw [recorded.decisions]; omega)]
    by_contra changed
    obtain ⟨-, place, -⟩ := recorded.bits i changed
    omega
  cases fills : stmt.fills with
  | true =>
    have filled1 := step_filled fills nonneg run1
    have filled2 := step_filled fills nonneg run2
    have filling := together.fill (roomy.head fills) filled1 filled2
    have pos := filled2.pos
    have le := filled2.le
    refine ⟨?_, ?_, ahead.never, bits⟩
    · intro ip typ
      rw [← filled1.moved.items] at typ
      rw [ahead.seen ip typ, filled2.moved.items]
    · intro ip s typ placed
      rw [← filled1.moved.items] at typ
      obtain ⟨same, low, high⟩ := ahead.ahead ip s typ placed
      obtain ⟨-, loc2, gain⟩ := filling s
      refine ⟨same, ?_, ?_⟩
      · split at loc2 <;> omega
      · split at gain <;> omega
  | false =>
    cases stmt with
    | sect t =>
      obtain ⟨rfl, -⟩ := sect_some run1
      obtain ⟨rfl, -⟩ := sect_some run2
      refine ⟨?_, ?_, ahead.never, bits⟩
      · simpa only [switchsect_items] using ahead.seen
      · simpa only [switchsect_items, switchsect_loc, switchsect_gain] using ahead.ahead
    | label ip =>
      obtain ⟨s, here, rfl, fresh, -⟩ := label_some run1
      obtain ⟨t, here2, rfl, -, -⟩ := label_some run2
      obtain rfl : s = t :=
        Option.some.inj (here.symm.trans (together.dotsct.symm.trans here2))
      have value := last ip (by simp)
      rw [setItem_self] at value
      refine ⟨?_, ?_, ahead.never, bits⟩
      · intro other typ
        have distinct : other ≠ ip := by
          rintro rfl
          exact typ (fresh rfl)
        rw [ahead.seen other (by rwa [setItem_of_ne distinct]), setItem_of_ne distinct]
      · intro other u typ placed
        by_cases same : other = ip
        · subst same
          rw [value] at placed
          cases placed
          have loc := together.loc s
          have loc1 := loc_current here
          have loc2 := loc_current here2
          rw [ahead.seen other (by simp), value, setItem_self]
          refine ⟨rfl, ?_, ?_⟩
          · simp only
            omega
          · simp only
            omega
        · exact ahead.ahead other u (by rwa [setItem_of_ne same]) placed
    | _ => cases fills

end Ahead

theorem Together.parse {st1 st2 end1 end2 : State} {traces1 traces2 : List Trace}
    (together : Together end1 st1 st2) (roomy : Roomy rest st1)
    (run1 : Passes.parse .pass1 bflag rest st1 = .ok (end1, traces1))
    (run2 : Passes.parse .pass2 bflag rest st2 = .ok (end2, traces2)) :
    Ahead st1 st2 end1 end2 ∧ ∀ tr ∈ traces1 ++ traces2, tr.asserted = true := by
  induction rest generalizing st1 st2 traces1 traces2 with
  | nil =>
    obtain ⟨rfl, rfl⟩ := parse_nil run1
    obtain ⟨rfl, rfl⟩ := parse_nil run2
    refine ⟨⟨fun _ _ => rfl, ?_, fun ip typ => together.unseen ip typ, fun _ _ => rfl⟩, by simp⟩
    intro ip s typ placed
    rw [typ] at placed
    cases placed
  | cons stmt rest ih =>
    obtain ⟨mid1, tr1, others1, first1, tail1, rfl⟩ := parse_cons run1
    obtain ⟨mid2, tr2, others2, first2, tail2, rfl⟩ := parse_cons run2
    have roomyTail := roomy.tail first1
    have last : ∀ ip, (mid1.items ip).typ ≠ none → end1.items ip = mid1.items ip :=
      fun ip declared => parse_declared roomyTail.nonneg tail1 declared
    obtain ⟨after, asserted⟩ := together.step roomy first1 first2 last
    obtain ⟨ahead, others⟩ := ih after roomyTail tail1 tail2
    refine ⟨ahead.cons together roomy last first1 first2, ?_⟩
    intro tr member
    simp only [List.cons_append, List.mem_cons, List.mem_append] at member others
    rcases member with rfl | member | rfl | member
    · exact pass1_asserted first1
    · exact others tr (Or.inl member)
    · exact asserted
    · exact others tr (Or.inr member)

end AckFormal.As.Passes
