import AckFormal.Opt.Tes

/-!
# What one line does to the pass

Each line of the text is a label, an instruction that the walk reaches or does not reach, or
leaves the walk as it is.
-/

namespace AckFormal.Opt.Tes

variable {em : Sizes} {pseudos : List Pseudo} {p : Proinf} {i j k : Nat} {m : NumP} {top : Int}

/-! ### One line -/

theorem passed_repl (fresh : Fresh p) (i : Nat) (np : NumP) :
    ((passed em pseudos p i).num np).n_repl = (p.num np).n_repl := by
  induction i with
  | zero => exact (passed_started fresh).repl np
  | succ i ih =>
    cases here : (text p)[i]? with
    | none =>
      rw [passed, List.take_add_one, here, Option.toList_none, List.append_nil]
      exact ih
    | some l =>
      rw [passed_succ here]
      exact (Pass.tes_instr_repl np).trans ih

theorem passed_oldlin (fresh : Fresh p)
    (inText : i ≤ (text p).length) : (passed em pseudos p i).oldlin = previous p i := by
  cases i with
  | zero => exact (passed_started fresh).oldlin
  | succ i =>
    have here := List.getElem?_eq_getElem (show i < (text p).length from inText)
    rw [passed_succ here, previous, here]
    rfl

structure Regular (t : Pass) : Prop where
  top : 0 ≤ t.stacktop
  unreached : t.state = .NOTREACHED → t.stacktop = 0
  sizes : ∀ m n, t.size m = some n → 0 ≤ n

variable {t t' : Pass} {b : Mnem}

theorem Regular.joined (regular : Regular t) (m : NumP) : 0 ≤ t.joined m := by
  unfold Pass.joined
  cases known : t.size m with
  | none => exact regular.top
  | some n =>
    have nonneg := regular.sizes m n known
    have least : 0 ≤ min t.stacktop n := Int.le_min.mpr ⟨regular.top, nonneg⟩
    dsimp only
    split <;> assumption

theorem Regular.installed (regular : Regular t) (installed : Pass.Installed t m t') :
    Regular t' := by
  refine ⟨?_, fun unreached => ?_, fun other n known => ?_⟩
  · rw [installed.stacktop]
    exact regular.joined m
  · exact nomatch installed.state.symm.trans unreached
  · by_cases same : other = m
    · subst same
      rw [installed.size] at known
      exact Option.some.inj known ▸ regular.joined other
    · rw [installed.others other same] at known
      exact regular.sizes other n known

/-- The pass behind an instruction, from the one behind its effect on the stack and its label. -/
structure Executed (b : Mnem) (mid t' : Pass) : Prop where
  goesOn : NON_CONTINUABLE b = false → t'.state = mid.state ∧ t'.stacktop = mid.stacktop
  ends : NON_CONTINUABLE b = true → t'.state = .NOTREACHED ∧ t'.stacktop = 0
  size : ∀ m, t'.size m = mid.size m

theorem executed_instr {t : Pass} {b : Mnem} {operand : Operand} (known : t.state = .KNOWN) :
    Executed b
      (if ISABRANCH b then
        Pass.do_inst_label
          { t with stacktop := newStacktop em b operand t.oldlin t.oldlin2 t.stacktop }
          ⟨.op b, operand⟩
      else { t with stacktop := newStacktop em b operand t.oldlin t.oldlin2 t.stacktop })
      (t.step em ⟨.op b, operand⟩) := by
  have reach : ¬t.state = .NOTREACHED := by
    rw [known]
    nofun
  simp only [Pass.step, Pass.tes_instr, if_neg reach]
  cases stops : NON_CONTINUABLE b with
  | false =>
    exact ⟨fun _ => ⟨rfl, rfl⟩, fun ends => (nomatch stops.symm.trans ends), fun _ => rfl⟩
  | true =>
    exact ⟨fun stays => (nomatch stops.symm.trans stays), fun _ => ⟨rfl, rfl⟩, fun _ => rfl⟩

structure Skipped (t t' : Pass) : Prop where
  state : t'.state = t.state
  stacktop : t'.stacktop = t.stacktop
  size : ∀ m, t'.size m = t.size m

theorem step_unreached {operand : Operand} (unreached : t.state = .NOTREACHED) :
    Skipped t (t.step em ⟨.op b, operand⟩) := by
  simp only [Pass.step, Pass.tes_instr, if_pos unreached]
  exact ⟨rfl, rfl, fun _ => rfl⟩

/-- A size that comes to a label is not below the one recorded there then. -/
theorem joined_le_size {n : Int} (known : t.size m = some n) : t.joined m ≤ n := by
  unfold Pass.joined
  rw [known]
  dsimp only
  split
  · exact Int.le_refl n
  · exact Int.min_le_right _ _

theorem joined_le_stacktop {t : Pass} (state : t.state = .KNOWN) : t.joined m ≤ t.stacktop := by
  unfold Pass.joined
  cases t.size m with
  | none => exact Int.le_refl _
  | some n =>
    dsimp only
    rw [if_neg (by rw [state]; nofun)]
    exact Int.min_le_left _ _

/-- The size at a label is one of those that come together there. -/
theorem joined_cases (t : Pass) (m : NumP) :
    t.size m = some (t.joined m) ∨ t.joined m = t.stacktop := by
  unfold Pass.joined
  cases known : t.size m with
  | none => exact .inr rfl
  | some n =>
    dsimp only
    split
    · exact .inl rfl
    · rcases Int.le_total t.stacktop n with le | le
      · exact .inr (Int.min_eq_left le)
      · exact .inl (congrArg some (Int.min_eq_right le).symm)

variable (em pseudos p) in
/-- The pass behind the effect of the instruction at a position. -/
def arrived (i : Nat) : Pass :=
  { passed em pseudos p i with
    stacktop := topBehind em p i (passed em pseudos p i).stacktop }

variable (em pseudos p) in
inductive Turn (i : Nat) : Prop where
  | label {m : NumP} (found : LabelAt p i m)
      (installed : Pass.Installed (passed em pseudos p i) m (passed em pseudos p (i + 1)))
  | silent (noLabel : ¬∃ m, LabelAt p i m) (noBranch : ∀ m, ¬BranchAt p i m)
      (leaves : ∀ top, topBehind em p i top = top) (same : reached p (i + 1) = reached p i)
      (skipped : Skipped (passed em pseudos p i) (passed em pseudos p (i + 1)))
  | unreached {b : Mnem} {operand : Operand} (here : (text p)[i]? = some ⟨.op b, operand⟩)
      (state : (passed em pseudos p i).state = .NOTREACHED)
      (skipped : Skipped (passed em pseudos p i) (passed em pseudos p (i + 1)))
  | plain {b : Mnem} {operand : Operand} (here : (text p)[i]? = some ⟨.op b, operand⟩)
      (state : (passed em pseudos p i).state = .KNOWN) (noBranch : ∀ m, ¬BranchAt p i m)
      (executed : Executed b (arrived em pseudos p i) (passed em pseudos p (i + 1)))
  | branch {b : Mnem} {operand : Operand} (here : (text p)[i]? = some ⟨.op b, operand⟩)
      (state : (passed em pseudos p i).state = .KNOWN) {m : NumP} (found : BranchAt p i m)
      {mid : Pass} (installed : Pass.Installed (arrived em pseudos p i) m mid)
      (executed : Executed b mid (passed em pseudos p (i + 1)))

theorem no_label_of_instr {operand : Operand} (here : (text p)[i]? = some ⟨.op b, operand⟩) :
    ¬∃ m, LabelAt p i m := by
  rintro ⟨_, _, there, -⟩
  exact nomatch here.symm.trans there

/-- One line of the pass keeps what is known of the lines before it. -/
theorem turn (fresh : Fresh p) (inText : i < (text p).length)
    (regular : Regular (passed em pseudos p i)) : Turn em pseudos p i := by
  have here := List.getElem?_eq_getElem inText
  generalize (text p)[i] = l at here
  have next := @passed_succ em pseudos p i l here
  obtain ⟨instr, operand⟩ := l
  have silent : (∀ b, instr ≠ .op b) → (¬∃ m, LabelAt p i m) → reached p (i + 1) = reached p i →
      Skipped (passed em pseudos p i) (passed em pseudos p (i + 1)) → Turn em pseudos p i := by
    intro noInstr noLabel same skipped
    refine .silent noLabel ?_ ?_ same skipped
    · rintro m ⟨b, np, there, -⟩
      exact noInstr b (congrArg Line.l_instr (Option.some.inj (here.symm.trans there)))
    · intro top
      rw [topBehind, here]
      cases instr with
      | op b => exact absurd rfl (noInstr b)
      | _ => rfl
  cases instr with
  | op_lab =>
    by_cases isLabel : ∃ m, LabelAt p i m
    · obtain ⟨m, label⟩ := isLabel
      obtain ⟨np, there, name⟩ := id label
      obtain rfl : operand = .OPNUMLAB np :=
        congrArg Line.l_a (Option.some.inj (here.symm.trans there))
      have installed := @Pass.do_inst_label_installed (passed em pseudos p i) .op_lab np
      rw [passed_repl fresh i np, name] at installed
      refine .label label ?_
      rw [next]
      exact ⟨installed.state, installed.stacktop, installed.size, installed.others, installed.repl⟩
    · cases operand with
      | OPNUMLAB np => exact absurd ⟨_, np, here, rfl⟩ isLabel
      | _ =>
        refine silent (fun _ same => by cases same) isLabel ?_ ?_
        · rw [reached, here]
        · rw [next]
          exact ⟨rfl, rfl, fun _ => rfl⟩
  | ps pseudo =>
    refine silent (fun _ same => by cases same) ?_ ?_ ?_
    · rintro ⟨_, _, there, -⟩
      cases here.symm.trans there
    · rw [reached, here]
    · rw [next]
      exact ⟨rfl, rfl, fun _ => rfl⟩
  | op b =>
    cases state : (passed em pseudos p i).state with
    | NOTREACHED =>
      refine .unreached here state ?_
      rw [next]
      exact step_unreached state
    | KNOWN =>
      have executed := @executed_instr em (passed em pseudos p i) b operand state
      have effect : newStacktop em b operand (passed em pseudos p i).oldlin
          (passed em pseudos p i).oldlin2 (passed em pseudos p i).stacktop =
            topBehind em p i (passed em pseudos p i).stacktop := by
        rw [newStacktop_eq regular.top, passed_oldlin fresh (Nat.le_of_lt inText), topBehind, here]
      rw [← next, effect] at executed
      by_cases isBranch : ∃ m, BranchAt p i m
      · obtain ⟨m, branch⟩ := isBranch
        obtain ⟨b', np, there, jumps, name⟩ := id branch
        obtain ⟨rfl, rfl⟩ : b = b' ∧ operand = .OPNUMLAB np := by
          cases Option.some.inj (here.symm.trans there)
          exact ⟨rfl, rfl⟩
        rw [if_pos jumps] at executed
        have installed :=
          @Pass.do_inst_label_installed (arrived em pseudos p i) (.op b) np
        have repl : ((arrived em pseudos p i).num np).n_repl = m :=
          (passed_repl fresh i np).trans name
        rw [repl] at installed
        exact .branch here state branch installed executed
      · refine .plain here state (fun m branch => isBranch ⟨m, branch⟩) ?_
        cases jumps : ISABRANCH b with
        | false =>
          rw [jumps] at executed
          exact executed
        | true =>
          cases operand with
          | OPNUMLAB np => exact absurd ⟨_, b, np, here, jumps, rfl⟩ isBranch
          | _ =>
            rw [jumps] at executed
            exact executed

theorem Regular.executed {mid : Pass} (regular : Regular mid) (executed : Executed b mid t') :
    Regular t' := by
  refine ⟨?_, fun unreached => ?_, fun m n known => ?_⟩
  · cases stops : NON_CONTINUABLE b with
    | false => exact (executed.goesOn stops).2 ▸ regular.top
    | true => exact (executed.ends stops).2 ▸ Int.le_refl 0
  · cases stops : NON_CONTINUABLE b with
    | false =>
      obtain ⟨state, top⟩ := executed.goesOn stops
      rw [top]
      exact regular.unreached (state ▸ unreached)
    | true => exact (executed.ends stops).2
  · rw [executed.size] at known
    exact regular.sizes m n known

theorem Regular.skipped (regular : Regular t) (skipped : Skipped t t') : Regular t' := by
  refine ⟨skipped.stacktop ▸ regular.top, fun unreached => ?_, fun m n known => ?_⟩
  · rw [skipped.stacktop]
    exact regular.unreached (skipped.state ▸ unreached)
  · rw [skipped.size] at known
    exact regular.sizes m n known

theorem Regular.arrived (regular : Regular (passed em pseudos p i))
    (state : (passed em pseudos p i).state = .KNOWN) : Regular (arrived em pseudos p i) :=
  ⟨topBehind_nonneg regular.top, fun unreached => (nomatch state.symm.trans unreached),
    regular.sizes⟩

theorem Started.regular {data : NumP → Prop} (started : Started data p t) : Regular t := by
  refine ⟨Int.le_of_eq started.stacktop.symm, fun _ => started.stacktop, fun m n known => ?_⟩
  rcases started.size m with ⟨unset, -⟩ | ⟨set, -⟩
  · exact nomatch unset.symm.trans known
  · exact Int.le_of_eq (Option.some.inj (set.symm.trans known))

theorem passed_regular (fresh : Fresh p)
    (inText : i ≤ (text p).length) : Regular (passed em pseudos p i) := by
  induction i with
  | zero => exact (passed_started fresh).regular
  | succ i ih =>
    have regular := ih (Nat.le_of_lt inText)
    cases turn fresh inText regular with
    | label _ installed => exact regular.installed installed
    | silent _ _ _ _ skipped => exact regular.skipped skipped
    | unreached _ _ skipped => exact regular.skipped skipped
    | plain _ state _ executed => exact (regular.arrived state).executed executed
    | branch _ state _ installed executed =>
      exact ((regular.arrived state).installed installed).executed executed

end AckFormal.Opt.Tes
