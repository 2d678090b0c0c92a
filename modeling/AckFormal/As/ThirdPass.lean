import AckFormal.As.PassesConsistency
import Mathlib.Algebra.GroupWithZero.Nat

/-!
# The third pass

It is where the second pass was at every statement, takes its decisions from the bit
table, and uses the labels as the second pass left them.
-/

namespace AckFormal.As.Passes

/-- The second and the third pass at the same statement; `end2` is the end of the
second pass. -/
structure Third (end2 st2 st3 : State) : Prop where
  dotsct : st3.dotsct = st2.dotsct
  loc : ∀ s, st3.loc s = st2.loc s
  decisions : st3.decisions = st2.decisions
  items : st3.items = end2.items
  bits : st3.bits = end2.bits

variable {s : Sec} {st : State} {pass : Pass} {opc ip : Nat} {bflag : Bool}

theorem Third.dotval {end2 st2 st3 : State} (third : Third end2 st2 st3)
    (here : st2.dotsct = some s) : st3.dotval = st2.dotval := by
  have loc := third.loc s
  rwa [loc_current (third.dotsct.trans here), loc_current here] at loc

/-- The statement took the same room in both passes and wrote a branch of the same form. -/
structure Matches (tr2 tr3 : Trace) : Prop where
  emitted : tr3.emitted = tr2.emitted
  gap : tr3.gap = tr2.gap
  short : tr3.jump.map Jump.short = tr2.jump.map Jump.short

theorem Matches.refl (tr : Trace) : Matches tr tr := ⟨rfl, rfl, rfl⟩

theorem Matches.width {tr2 tr3 : Trace} (same : Matches tr2 tr3) : tr3.width = tr2.width := by
  rw [Trace.width, Trace.width, same.emitted, same.gap]

/-! ## Displacements -/

theorem reach_eq (pass : Pass) (opc ip : Nat) (here : st.dotsct = some s) :
    reach pass opc ip st =
      (if pass = .pass2 ∧ 0 < load (st.items ip) - (st.dotval + 2) then
          load (st.items ip) - (st.dotval + 2) - (st.sects s).gain
        else load (st.items ip) - (st.dotval + 2),
       if (st.items ip).typ ≠ some s then false
       else if 0 < (reach pass opc ip st).1 then
         fitb ((reach pass opc ip st).1 - if opc = 0o353 then 1 else 3)
       else fitb (reach pass opc ip st).1) := by
  simp only [reach, here]

theorem reach_disp (here : st.dotsct = some s) (other : pass ≠ .pass2) :
    (reach pass opc ip st).1 = load (st.items ip) - (st.dotval + 2) := by
  rw [reach_eq pass opc ip here, if_neg (fun both => other both.1)]

theorem reach_typ (here : st.dotsct = some s) (near : (reach pass opc ip st).2 = true) :
    (st.items ip).typ = some s := by
  rw [reach_eq pass opc ip here] at near
  by_contra other
  rw [if_pos other] at near
  cases near

theorem reach_near (here : st.dotsct = some s) (typ : (st.items ip).typ = some s) :
    (reach pass opc ip st).2 = true ↔
      -128 ≤ (reach pass opc ip st).1 - (if 0 < (reach pass opc ip st).1 then
        if opc = 0o353 then 1 else 3 else 0) ∧
      (reach pass opc ip st).1 - (if 0 < (reach pass opc ip st).1 then
        if opc = 0o353 then 1 else 3 else 0) ≤ 127 := by
  have second : (reach pass opc ip st).2 = if 0 < (reach pass opc ip st).1 then
      fitb ((reach pass opc ip st).1 - if opc = 0o353 then 1 else 3)
      else fitb (reach pass opc ip st).1 := by
    conv_lhs => rw [reach_eq pass opc ip here]
    exact if_neg (fun other => other typ)
  rw [second]
  split
  · exact fitb_iff
  · rw [fitb_iff, Int.sub_zero]

theorem load_placed {item : Item} (typ : item.typ = some s) : load item = item.valu := by
  rw [load, typ]

section Branches

variable {end1 end2 st1 st1' st2 st2' st3 st3' : State} {bflag : Bool} {opc ip : Nat}
  {tr1 tr2 tr3 : Trace} {s : Sec}

/-- What the second pass found near is near in the third pass: a label behind has
not moved, and one ahead comes down by the gain and by what the branch saves. -/
theorem near_stays_near (together : Together end1 st1 st2) (third : Third end2 st2 st3)
    (after : Ahead st1' st2' end1 end2) (here : st1.dotsct = some s)
    (notLoop : isLoop opc = false) (items1 : st1'.items = st1.items)
    (items2 : st2'.items = st2.items) (loc2 : (st2'.loc s : Int) = st2.loc s + 2)
    (gain2 : ((st2'.sects s).gain : Int) =
      (st2.sects s).gain + ((Stmt.branch opc ip).largest - 2))
    (near : (reach .pass2 opc ip st2).2 = true) :
    (-128 ≤ (reach .pass3 opc ip st3).1 ∧ (reach .pass3 opc ip st3).1 ≤ 127) ∧
      (reach .pass3 opc ip st3).2 = true := by
  have here2 := together.dotsct.trans here
  have here3 := third.dotsct.trans here2
  have typ := reach_typ here2 near
  have counter := loc_current here2
  have disp3 : (reach .pass3 opc ip st3).1 = _ := reach_disp here3 (by decide)
  rw [third.items, third.dotval here2] at disp3
  have test := (reach_near here2 typ).mp near
  have saved := saving_eq notLoop ip
  suffices placed : (end2.items ip).typ = some s ∧
      -128 ≤ (reach .pass3 opc ip st3).1 ∧ (reach .pass3 opc ip st3).1 ≤ 127 by
    obtain ⟨typ3, low, high⟩ := placed
    refine ⟨⟨low, high⟩, (reach_near here3 (by rwa [third.items])).mpr ?_⟩
    split
    · split <;> omega
    · omega
  have disp2 : (reach .pass2 opc ip st2).1 =
      if 0 < (st2.items ip).valu - (st2.dotval + 2) then
        (st2.items ip).valu - (st2.dotval + 2) - (st2.sects s).gain
      else (st2.items ip).valu - (st2.dotval + 2) := by
    rw [reach_eq .pass2 opc ip here2, load_placed typ]
    simp
  cases declared : (st1.items ip).typ with
  | some t =>
    obtain ⟨same, below, -⟩ := together.seen ip t declared
    obtain rfl : t = s := Option.some.inj (same.symm.trans typ)
    have kept := after.seen ip (by rw [items1, declared]; simp)
    rw [items2] at kept
    rw [kept, load_placed typ] at disp3
    exact ⟨by rw [kept]; exact typ, by omega, by omega⟩
  | none =>
    have label := together.unseen ip declared
    obtain ⟨typ3, low, high⟩ := after.ahead ip s (by rw [items1, declared])
      (by rw [← label]; exact typ)
    rw [load_placed typ3] at disp3
    rw [← label] at high
    exact ⟨typ3, by omega, by omega⟩

theorem emit_current {n : Nat} {st st' : State} (run : emit (n + 1) st = .ok st') :
    ∃ s, st.dotsct = some s := by
  cases here : st.dotsct with
  | none => simp [emit, here] at run
  | some s => exact ⟨s, rfl⟩

theorem branch_current {pass : Pass} {st st' : State} {tr : Trace}
    (run : branch pass bflag opc ip st = .ok (st', tr)) : ∃ s, st.dotsct = some s := by
  cases branch_some run with
  | loop loops inReach emitted trace => exact emit_current emitted
  | decided notLoop mid answer asserted room disp decided emitted short long trace =>
    have positive : ∃ n, room = n + 1 := by
      refine ⟨room - 1, ?_⟩
      cases answered : answer with
      | true => have := (short answered).1; omega
      | false =>
        have full := long answered
        simp only [Stmt.largest] at full
        split at full <;> omega
    obtain ⟨n, rfl⟩ := positive
    obtain ⟨s, here⟩ := emit_current emitted
    exact ⟨s, decided.moved.dotsct.symm.trans here⟩

variable (together : Together end1 st1 st2) (third : Third end2 st2 st3) (after : Ahead st1' st2' end1 end2)
include together third after

/-- The decision in the third pass is the one that the second pass took. -/
theorem decision_eq {fits2 fits3 answer2 answer3 sound2 sound3 : Bool}
    {gain : Int} {mid2 mid3 : State}
    (decided2 : Decided .pass2 bflag fits2 gain st2 mid2 answer2 sound2)
    (decided3 : Decided .pass3 bflag fits3 gain st3 mid3 answer3 sound3)
    (bits : st2'.bits = mid2.bits) (decisions : st2'.decisions = mid2.decisions) :
    answer3 = answer2 := by
  have answered2 := decided2.answered
  have answered3 := decided3.answered
  simp only [decision] at answered2 answered3
  cases bflag with
  | true => rw [answered2, answered3]; rfl
  | false =>
    have known := after.bits st2.decisions (by
      rw [decisions, decided2.decisions]
      exact Nat.lt_succ_self _)
    have recorded : st3.bits st3.decisions = answer2 := by
      rw [third.bits, third.decisions, known, bits, decided2.bits]
      cases answer2 with
      | true => simp
      | false => simpa using together.fresh st2.decisions (Nat.le_refl _)
    rw [recorded, third.decisions] at answered3
    rw [answered3]
    cases full : st2.decisions != bitLimit with
    | true => simp
    | false => rw [answered2, full]; simp

/-- A branch is written the same way in the second and the third pass, and its
displacement fits, except for a `loop` that goes too far ahead. -/
theorem branch_third
    (room : ∀ s, st1.dotsct = some s → st1.loc s + (Stmt.branch opc ip).largest < 65536)
    (run1 : branch .pass1 bflag opc ip st1 = .ok (st1', tr1))
    (run2 : branch .pass2 bflag opc ip st2 = .ok (st2', tr2))
    (run3 : branch .pass3 bflag opc ip st3 = .ok (st3', tr3)) :
    Matches tr2 tr3 ∧ tr3.asserted = true ∧ ∃ jump, tr3.jump = some jump ∧
      (jump.short = true → (isLoop opc = true → jump.disp = (reach .pass3 opc ip st3).1) ∧
        -128 ≤ jump.disp ∧ jump.disp ≤ if isLoop opc then 130 else 127) := by
  obtain ⟨s, here⟩ := branch_current run1
  have here3 := third.dotsct.trans (together.dotsct.trans here)
  have filled1 := branch_filled run1
  have filled2 := branch_filled run2
  obtain ⟨-, loc2, gain2⟩ := together.fill room filled1 filled2 s
  rw [if_pos here] at loc2 gain2
  cases branch_some run2 with
  | loop loops inReach2 emitted2 trace2 =>
    cases branch_some run3 with
    | loop loops' inReach3 emitted3 trace3 =>
      subst trace2 trace3
      refine ⟨⟨rfl, rfl, rfl⟩, rfl, _, rfl, fun _ => ⟨fun _ => rfl, ?_⟩⟩
      have near := inReach3 rfl
      have test := (reach_near here3 (reach_typ here3 near)).mp near
      simp only [loops, if_true]
      split at test <;> omega
    | decided notLoop => rw [loops] at notLoop; cases notLoop
  | decided notLoop mid2 answer2 asserted2 room2 disp2 decided2 emitted2 short2 long2 trace2 =>
    cases branch_some run3 with
    | loop loops => rw [loops] at notLoop; cases notLoop
    | decided notLoop' mid3 answer3 asserted3 room3 disp3 decided3 emitted3 short3 long3 trace3 =>
      obtain ⟨-, decisions, bits⟩ := emit_some emitted2
      obtain rfl : answer3 = answer2 :=
        decision_eq together third after decided2 decided3 bits decisions
      have rooms : room3 = room2 := by
        cases answered : answer3 with
        | true => rw [(short2 answered).1, (short3 answered).1]
        | false =>
          have full2 := long2 answered
          have full3 := long3 answered
          omega
      have near : answer3 = true → (-128 ≤ (reach .pass3 opc ip st3).1 ∧
          (reach .pass3 opc ip st3).1 ≤ 127) ∧ (reach .pass3 opc ip st3).2 = true := by
        intro answered
        have width : tr2.width = 2 := by
          simp [trace2, Trace.width, (short2 answered).1]
        rw [width] at loc2 gain2
        refine near_stays_near together third after here notLoop filled1.moved.items
          filled2.moved.items loc2 gain2 ?_
        have decision := decided2.answered
        rw [answered] at decision
        simp only [Passes.decision, Bool.true_eq, Bool.and_eq_true] at decision
        exact decision.2
      subst trace2 trace3
      refine ⟨⟨rooms, rfl, rfl⟩, ?_, _, rfl, ?_⟩
      · rcases decided3.sound with sound | ⟨-, far, answered⟩
        · exact sound
        · rw [(near answered).2] at far
          cases far
      · intro answered
        obtain ⟨range, -⟩ := near answered
        have disp := (short3 answered).2
        simp only [notLoop]
        exact ⟨fun loops => absurd loops (by simp), by omega, by omega⟩

end Branches

/-! ## One statement -/

section Steps

variable {end1 end2 st1 st1' st2 st2' st3 st3' : State} {bflag : Bool} {stmt : Stmt}
  {rest : List Stmt} {tr1 tr2 tr3 : Trace}

/-- The branch of a statement fits in its byte, unless it is a `loop` whose label is
128 to 130 bytes ahead. -/
def InReach (stmt : Stmt) (st : State) (tr : Trace) : Prop :=
  ∀ jump, tr.jump = some jump → jump.short = true →
    (-128 ≤ jump.disp ∧ jump.disp ≤ 127) ∨
      ∃ opc ip, stmt = .branch opc ip ∧ isLoop opc = true ∧
        jump.disp = (reach .pass3 opc ip st).1 ∧ 128 ≤ jump.disp ∧ jump.disp ≤ 130

variable (third : Third end2 st2 st3)
include third

theorem Third.step_fill (together : Together end1 st1 st2)
    (roomy : Roomy (stmt :: rest) st1) (fills : stmt.fills = true) (same : Matches tr2 tr3)
    (run2 : step .pass2 bflag stmt st2 = .ok (st2', tr2))
    (run3 : step .pass3 bflag stmt st3 = .ok (st3', tr3)) : Third end2 st2' st3' := by
  have nonneg := roomy.nonneg stmt (by simp)
  have filled2 := step_filled fills nonneg run2
  have filled3 := step_filled fills nonneg run3
  have le := filled2.le
  have width := same.width
  have room (s : Sec) (here : st2.dotsct = some s) : st2.loc s + tr2.width < 65536 := by
    have bound := roomy.head fills s (by rw [← together.dotsct]; exact here)
    have loc := together.loc s
    omega
  refine ⟨?_, ?_, ?_, ?_, ?_⟩
  · rw [filled3.moved.dotsct, filled2.moved.dotsct, third.dotsct]
  · intro s
    have loc2 := filled2.moved.loc filled2.pos room s
    have loc3 := filled3.moved.loc filled3.pos (fun t here => by
      rw [width, third.loc]
      exact room t (third.dotsct.symm.trans here)) s
    rw [third.dotsct, third.loc, width] at loc3
    omega
  · rw [(step_recorded run3).decisions, (step_recorded run2).decisions, third.decisions]
  · rw [filled3.moved.items, third.items]
  · rw [← third.bits]
    funext i
    by_contra changed
    exact absurd ((step_recorded run3).bits i changed).1 (by decide)

theorem Third.step_sect (t : Sec) :
    Third end2 (switchsect (some t) st2) (switchsect (some t) st3) := by
  refine ⟨by simp, fun s => ?_, ?_, ?_, ?_⟩
  · simpa only [switchsect_loc] using third.loc s
  · simpa only [switchsect_decisions] using third.decisions
  · simpa only [switchsect_items] using third.items
  · simpa only [switchsect_bits] using third.bits

theorem Third.step_label {ip : Nat} {s : Sec}
    (here : st2.dotsct = some s) (settled : end2.items ip = ⟨some s, st2.dotval⟩) :
    Third end2 (st2.setItem ip ⟨some s, st2.dotval⟩) (st3.setItem ip ⟨some s, st3.dotval⟩) ∧
      (st3.items ip).valu = st3.dotval := by
  have dotval := third.dotval here
  refine ⟨⟨third.dotsct, third.loc, third.decisions, ?_, third.bits⟩, ?_⟩
  · rw [dotval, ← settled, State.setItem, ← third.items]
    exact Function.update_eq_self ip st3.items
  · rw [third.items, settled, dotval]

/-- The statements that are no branches, in the second and in the third pass. -/
theorem matches_plain (plain : ∀ opc ip, stmt ≠ .branch opc ip)
    (fills : stmt.fills = true) (run2 : step .pass2 bflag stmt st2 = .ok (st2', tr2))
    (run3 : step .pass3 bflag stmt st3 = .ok (st3', tr3)) :
    Matches tr2 tr3 ∧ tr3.asserted = true ∧ tr3.jump = none := by
  cases stmt with
  | sect t => cases fills
  | label ip => cases fills
  | branch opc ip => exact absurd rfl (plain opc ip)
  | code bytes =>
    obtain ⟨mid2, -, run2⟩ := bind_ok run2
    obtain ⟨mid3, -, run3⟩ := bind_ok run3
    cases run2
    cases run3
    exact ⟨Matches.refl _, rfl, rfl⟩
  | align bytes =>
    simp only [step, align] at run2 run3
    split at run2
    · cases run2
    rename_i s here
    rw [third.dotsct.trans here] at run3
    obtain ⟨lign2, -, run2⟩ := bind_ok run2
    obtain ⟨lign3, -, run3⟩ := bind_ok run3
    cases run2
    cases run3
    refine ⟨⟨rfl, ?_, rfl⟩, rfl, rfl⟩
    simp [alignGap, third.dotval here]
  | space bytes =>
    simp only [step, space] at run2 run3
    split at run2
    · cases run2
    rename_i s here
    rw [third.dotsct.trans here] at run3
    cases run2
    cases run3
    exact ⟨Matches.refl _, rfl, rfl⟩

/-- One statement keeps the third pass with the second. -/
theorem Third.step (together : Together end1 st1 st2)
    (roomy : Roomy (stmt :: rest) st1) (after : Ahead st1' st2' end1 end2)
    (run1 : Passes.step .pass1 bflag stmt st1 = .ok (st1', tr1))
    (run2 : Passes.step .pass2 bflag stmt st2 = .ok (st2', tr2))
    (run3 : Passes.step .pass3 bflag stmt st3 = .ok (st3', tr3)) :
    Third end2 st2' st3' ∧ Matches tr2 tr3 ∧ tr3.asserted = true ∧ InReach stmt st3 tr3 := by
  cases fills : stmt.fills with
  | true =>
    cases stmt with
    | branch opc ip =>
      obtain ⟨same, asserted, jump, wrote, fits⟩ :=
        branch_third together third after (roomy.head fills) run1 run2 run3
      refine ⟨third.step_fill together roomy fills same run2 run3, same, asserted, ?_⟩
      intro other written short
      obtain rfl : jump = other := Option.some.inj (wrote.symm.trans written)
      obtain ⟨disp, low, high⟩ := fits short
      cases loops : isLoop opc with
      | false =>
        rw [loops] at high
        exact Or.inl ⟨low, high⟩
      | true =>
        rw [loops, if_pos rfl] at high
        by_cases byte : jump.disp ≤ 127
        · exact Or.inl ⟨low, byte⟩
        · exact Or.inr ⟨opc, ip, rfl, loops, disp loops, by omega, high⟩
    | _ =>
      obtain ⟨same, asserted, noJump⟩ := matches_plain third (by simp) fills run2 run3
      refine ⟨third.step_fill together roomy fills same run2 run3, same, asserted, ?_⟩
      intro jump written
      rw [noJump] at written
      cases written
  | false =>
    cases stmt with
    | sect t =>
      obtain ⟨rfl, rfl⟩ := sect_some run2
      obtain ⟨rfl, rfl⟩ := sect_some run3
      exact ⟨third.step_sect t, Matches.refl _, rfl, fun jump written => by cases written⟩
    | label ip =>
      obtain ⟨r, -, rfl, -, -⟩ := label_some run1
      obtain ⟨s, here, rfl, -, rfl⟩ := label_some run2
      obtain ⟨t, here3, rfl, -, rfl⟩ := label_some run3
      obtain rfl : s = t :=
        Option.some.inj (here.symm.trans (third.dotsct.symm.trans here3))
      have settled := after.seen ip (by simp)
      rw [setItem_self] at settled
      obtain ⟨next, value⟩ := third.step_label here settled
      exact ⟨next, ⟨rfl, rfl, rfl⟩, by simp [value], fun jump written => by cases written⟩
    | _ => cases fills

end Steps

/-! ## The whole program -/

/-- In the third pass no `loop` or `jcxz` has its label 128 to 130 bytes ahead of the
instruction behind it. -/
def LoopsNear (bflag : Bool) (program : List Stmt) (st : State) : Prop :=
  ∀ done opc ip mid traces, done ++ [.branch opc ip] <+: program →
    parse .pass3 bflag done st = .ok (mid, traces) → isLoop opc = true →
      ¬(128 ≤ load (mid.items ip) - (mid.dotval + 2) ∧
        load (mid.items ip) - (mid.dotval + 2) ≤ 130)

structure Settled (bflag : Bool) (rest : List Stmt) (end2 st3 : State)
    (traces2 traces3 : List Trace) : Prop where
  items : ∀ done mid traces, done <+: rest →
    parse .pass3 bflag done st3 = .ok (mid, traces) → mid.items = end2.items
  same : List.Forall₂ Matches traces2 traces3
  asserted : ∀ tr ∈ traces3, tr.asserted = true
  inReach : LoopsNear bflag rest st3 → ∀ tr ∈ traces3, ∀ jump, tr.jump = some jump →
    jump.short = true → -128 ≤ jump.disp ∧ jump.disp ≤ 127

/-- The third pass goes with the second over any rest of the program. -/
theorem Third.parse {rest : List Stmt} {end1 end2 end3 st1 st2 st3 : State}
    {traces1 traces2 traces3 : List Trace} (third : Third end2 st2 st3)
    (together : Together end1 st1 st2) (roomy : Roomy rest st1)
    (run1 : Passes.parse .pass1 bflag rest st1 = .ok (end1, traces1))
    (run2 : Passes.parse .pass2 bflag rest st2 = .ok (end2, traces2))
    (run3 : Passes.parse .pass3 bflag rest st3 = .ok (end3, traces3)) :
    Settled bflag rest end2 st3 traces2 traces3 := by
  induction rest generalizing st1 st2 st3 traces1 traces2 traces3 with
  | nil =>
    obtain ⟨rfl, rfl⟩ := parse_nil run2
    obtain ⟨rfl, rfl⟩ := parse_nil run3
    refine ⟨?_, .nil, by simp, by simp⟩
    intro done mid traces front run
    rw [List.prefix_nil.mp front] at run
    obtain ⟨rfl, -⟩ := parse_nil run
    exact third.items
  | cons stmt rest ih =>
    obtain ⟨mid1, tr1, others1, first1, tail1, rfl⟩ := parse_cons run1
    obtain ⟨mid2, tr2, others2, first2, tail2, rfl⟩ := parse_cons run2
    obtain ⟨mid3, tr3, others3, first3, tail3, rfl⟩ := parse_cons run3
    have roomyTail := roomy.tail first1
    obtain ⟨after, -⟩ := together.step roomy first1 first2
      fun ip declared => parse_declared roomyTail.nonneg tail1 declared
    obtain ⟨ahead, -⟩ := after.parse roomyTail tail1 tail2
    obtain ⟨next, same, asserted, near⟩ :=
      third.step together roomy ahead first1 first2 first3
    have settled := ih next after roomyTail tail1 tail2 tail3
    refine ⟨?_, .cons same settled.same, ?_, ?_⟩
    · intro done mid traces front run
      cases done with
      | nil =>
        obtain ⟨rfl, -⟩ := parse_nil run
        exact third.items
      | cons head done =>
        obtain ⟨rfl, shorter⟩ := List.cons_prefix_cons.mp front
        obtain ⟨mid', tr, others, first, tail, -⟩ := parse_cons run
        rw [first3] at first
        cases first
        exact settled.items done mid others shorter tail
    · intro tr member
      rcases List.mem_cons.mp member with rfl | member
      · exact asserted
      · exact settled.asserted tr member
    · intro loops tr member jump wrote short
      rcases List.mem_cons.mp member with rfl | member
      · rcases near jump wrote short with fits | ⟨opc, ip, rfl, isLoop, disp, range⟩
        · exact fits
        · obtain ⟨s, here⟩ := branch_current first3
          rw [reach_disp here (by decide)] at disp
          have far := loops [] opc ip st3 [] (by simp) rfl isLoop
          omega
      · refine settled.inReach ?_ tr member jump wrote short
        intro done opc ip mid traces front run
        refine loops (stmt :: done) opc ip mid (tr3 :: traces) ?_ ?_
        · rw [List.cons_append]
          exact List.cons_prefix_cons.mpr ⟨rfl, front⟩
        · simp only [Passes.parse, first3, run, bind, Except.bind]

structure Consistent (bflag : Bool) (program : List Stmt) (done : Assembled) : Prop where
  decreasing : ∀ ip, (done.pass2.final.items ip).valu ≤ (done.pass1.final.items ip).valu ∧
    (done.pass3.final.items ip).valu ≤ (done.pass2.final.items ip).valu
  settled : ∀ front mid traces, front <+: program →
    parse .pass3 bflag front (restart done.pass2.final) = .ok (mid, traces) →
      mid.items = done.pass2.final.items
  same : List.Forall₂ Matches done.pass2.traces done.pass3.traces
  inReach : ∀ tr ∈ done.pass3.traces, ∀ jump, tr.jump = some jump → jump.short = true →
    -128 ≤ jump.disp ∧ jump.disp ≤ 127
  asserted : ∀ tr ∈ done.pass1.traces ++ done.pass2.traces ++ done.pass3.traces,
    tr.asserted = true

theorem assemble_some {program : List Stmt} {done : Assembled}
    (run : assemble bflag program = .ok done) :
    parse .pass1 bflag program {} = .ok (done.pass1.final, done.pass1.traces) ∧
      parse .pass2 bflag program (restart done.pass1.final) =
        .ok (done.pass2.final, done.pass2.traces) ∧
      parse .pass3 bflag program (restart done.pass2.final) =
        .ok (done.pass3.final, done.pass3.traces) := by
  obtain ⟨pass1, run1, run⟩ := bind_ok run
  obtain ⟨end1, parsed1, run1⟩ := bind_ok run1
  cases run1
  obtain ⟨pass2, run2, run⟩ := bind_ok run
  obtain ⟨end2, parsed2, run2⟩ := bind_ok run2
  cases run2
  obtain ⟨pass3, run3, run⟩ := bind_ok run
  obtain ⟨end3, parsed3, run3⟩ := bind_ok run3
  cases run3
  cases run
  exact ⟨parsed1, parsed2, parsed3⟩

@[simp] theorem restart_loc (st : State) (s : Sec) : (restart st).loc s = 0 := by
  simp [restart, State.loc]

theorem together_start {end1 : State} (bits : end1.bits = fun _ => false) :
    Together end1 {} (restart end1) := by
  refine ⟨rfl, fun s => ?_, fun ip s typ => (by cases typ), fun ip _ => ?_, fun i _ => ?_⟩
  · rw [restart_loc]
    simp [State.loc, restart]
  · exact congrFun (switchsect_items none end1) ip
  · exact congrFun ((switchsect_bits none end1).trans bits) i

theorem third_start (end1 end2 : State) : Third end2 (restart end1) (restart end2) :=
  ⟨rfl, fun s => by rw [restart_loc, restart_loc], rfl, switchsect_items none end2,
    switchsect_bits none end2⟩

theorem roomy_start {program : List Stmt} (nonneg : ∀ stmt ∈ program, 0 ≤ stmt.largest)
    (room : ∀ s, extent s none program < 65536) : Roomy program {} :=
  ⟨nonneg, fun s => by simpa [State.loc] using room s⟩

theorem parse_prefix {done rest : List Stmt} {stmt : Stmt} {mid e : State}
    {front traces : List Trace} (run : parse pass bflag (done ++ stmt :: rest) st = .ok (e, traces))
    (part : parse pass bflag done st = .ok (mid, front)) :
    ∃ next tr, step pass bflag stmt mid = .ok (next, tr) ∧ tr ∈ traces := by
  induction done generalizing st front traces with
  | nil =>
    obtain ⟨rfl, -⟩ := parse_nil part
    obtain ⟨next, tr, others, first, -, rfl⟩ := parse_cons run
    exact ⟨next, tr, first, by simp⟩
  | cons head done ih =>
    obtain ⟨next, tr, others, first, tail, rfl⟩ := parse_cons run
    obtain ⟨next', tr', others', first', tail', rfl⟩ := parse_cons part
    rw [first] at first'
    cases first'
    obtain ⟨last, found, taken, member⟩ := ih tail tail'
    exact ⟨last, found, taken, List.mem_cons_of_mem _ member⟩

/-- When no section outgrows its location counter, the passes agree exactly when no
`loop` or `jcxz` goes 128 to 130 bytes ahead. -/
theorem assemble_consistent_iff (bflag : Bool) (program : List Stmt) (done : Assembled)
    (run : assemble bflag program = .ok done)
    (nonneg : ∀ stmt ∈ program, 0 ≤ stmt.largest)
    (room : ∀ s, extent s none program < 65536) :
    Consistent bflag program done ↔ LoopsNear bflag program (restart done.pass2.final) := by
  obtain ⟨run1, run2, run3⟩ := assemble_some run
  constructor
  · intro consistent front opc ip mid traces ahead part loops far
    obtain ⟨rest, split⟩ := ahead
    rw [List.append_assoc, List.singleton_append] at split
    rw [← split] at run3
    obtain ⟨next, tr, taken, member⟩ := parse_prefix run3 part
    obtain ⟨s, here⟩ := branch_current taken
    have disp : (reach .pass3 opc ip _).1 = _ := reach_disp here (by decide)
    cases branch_some taken with
    | loop _ inReach emitted trace =>
      have range := consistent.inReach tr member _ (by rw [trace]) rfl
      simp only at range
      omega
    | decided notLoop =>
      rw [loops] at notLoop
      cases notLoop
  · intro loops
    have bits := parse_bits (by decide) run1
    have together := together_start bits
    have roomy := roomy_start nonneg room
    obtain ⟨ahead, asserted⟩ := together.parse roomy run1 run2
    have settled := (third_start done.pass1.final done.pass2.final).parse together roomy
      run1 run2 run3
    have last := settled.items program done.pass3.final _ (List.prefix_refl _) run3
    refine ⟨fun ip => ⟨?_, Int.le_of_eq (by rw [last])⟩, settled.items, settled.same,
      settled.inReach loops, ?_⟩
    · cases typ : (done.pass1.final.items ip).typ with
      | none => exact Int.le_of_eq (by rw [ahead.never ip typ])
      | some s =>
        obtain ⟨-, -, le⟩ := ahead.ahead ip s rfl typ
        omega
    · intro tr member
      rcases List.mem_append.mp member with member | member
      · exact asserted tr member
      · exact settled.asserted tr member

theorem exists_assembled (bflag : Bool) (program : List Stmt) (traces : List Trace)
    (run : (assemble bflag program).map (fun done => done.pass3.traces) = .ok traces) :
    ∃ done, assemble bflag program = .ok done ∧ done.pass3.traces = traces := by
  cases assembled : assemble bflag program with
  | error e => rw [assembled] at run; cases run
  | ok done =>
    rw [assembled] at run
    exact ⟨done, rfl, Except.ok.inj run⟩

theorem sections_ne_zero : NeZero 64 := ⟨by decide⟩

attribute [local instance] sections_ne_zero

/-- `je` over 120 bytes with a gap for alignment in between. -/
def jumpAhead : List Stmt :=
  [.sect 0, .branch 0o164 1, .align 4, .space 120, .label 1, .branch 0o353 1]

theorem assemble_consistent_iff_jump :
    ∃ done, assemble false jumpAhead = .ok done ∧ Consistent false jumpAhead done := by
  obtain ⟨done, run, -⟩ := exists_assembled false jumpAhead
    [{}, { emitted := 2, jump := some ⟨true, 122⟩ }, { gap := 2 }, { gap := 120 }, {},
      { emitted := 2, jump := some ⟨true, -2⟩ }] (by decide +kernel)
  refine ⟨done, run, (assemble_consistent_iff false jumpAhead done run (by decide)
    (by decide)).mpr ?_⟩
  intro front opc ip mid traces ahead part loops
  have member : Stmt.branch opc ip ∈ jumpAhead := ahead.subset (by simp)
  have noLoop : ∀ stmt ∈ jumpAhead, ∀ opc ip, stmt = .branch opc ip → isLoop opc = false := by
    intro stmt member opc ip same
    subst same
    simp only [jumpAhead, List.mem_cons, Stmt.branch.injEq, reduceCtorEq, false_or,
      List.not_mem_nil, or_false] at member
    rcases member with ⟨rfl, -⟩ | ⟨rfl, -⟩
    · rfl
    · rfl
  rw [noLoop _ member opc ip rfl] at loops
  cases loops

def loopAhead : List Stmt := [.sect 0, .branch 0o342 1, .space 128, .label 1]

/-- The displacement 128 of the `loop` is written into a byte without a message. -/
theorem loop_displacement_lost :
    ∃ done, assemble false loopAhead = .ok done ∧ ¬Consistent false loopAhead done := by
  obtain ⟨done, run, traces⟩ := exists_assembled false loopAhead
    [{}, { emitted := 2, jump := some ⟨true, 128⟩ }, { gap := 128 }, {}] rfl
  refine ⟨done, run, fun consistent => ?_⟩
  have range := consistent.inReach { emitted := 2, jump := some ⟨true, 128⟩ }
    (by rw [traces]; simp) ⟨true, 128⟩ rfl rfl
  exact absurd range.2 (by decide)

end AckFormal.As.Passes
