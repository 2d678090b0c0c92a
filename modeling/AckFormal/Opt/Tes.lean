import AckFormal.Opt.PopPush
import Mathlib.Algebra.Group.Int.Defs
import Mathlib.Algebra.Group.Nat.Defs

/-!
# The sizes recorded for labels

The phase of `tes.c`: one walk along the instructions of a procedure that keeps the size of the
element on top of the stack, and for each label the least size that it has met there.
-/

namespace AckFormal.Opt.Tes

inductive State where
  | KNOWN | NOTREACHED
  deriving DecidableEq

/-- The static variables of the walk, the labels, and the last two lines of `do_tes`. -/
structure Pass where
  state : State
  stacktop : Int
  num : NumP → Num
  oldlin : Option Line
  oldlin2 : Option Line

inductive Arg where
  | ARGNUM (a_np : NumP)
  | other

inductive PseudoOperand where
  | OPLIST (la_arg : List Arg)
  | OPNUMLAB (la_np : NumP)
  | other

inductive PseudoInstr where
  | ps_con | ps_rom | other

structure Pseudo where
  l_instr : PseudoInstr
  l_a : PseudoOperand

/-- The labels that `tes_pseudos` finds in a line. -/
def Pseudo.labels : Pseudo → List NumP
  | ⟨.other, _⟩ => []
  | ⟨_, .OPLIST args⟩ => args.filterMap fun ap =>
    match ap with
    | .ARGNUM np => some np
    | .other => none
  | ⟨_, .OPNUMLAB np⟩ => [np]
  | ⟨_, .other⟩ => []

namespace Pass

def setNum (t : Pass) (np : NumP) (change : Num → Num) : Pass :=
  { t with num := Function.update t.num np (change (t.num np)) }

def assign_label (t : Pass) (label : NumP) : Pass :=
  if (t.num label).n_flags.NUMSET then
    if t.state = .NOTREACHED ∨ t.stacktop > (t.num label).n_size then
      { t with stacktop := (t.num label).n_size }
    else if t.stacktop < (t.num label).n_size then
      t.setNum label fun n => { n with n_size := t.stacktop }
    else t
  else
    t.setNum label fun n =>
      { n with n_size := t.stacktop, n_flags := { n.n_flags with NUMSET := true } }

/-- The flags that `do_inst_label` sets behind `assign_label`. -/
def markLabel (t : Pass) (instr : Instr) (label : NumP) : Pass :=
  match instr with
  | .op_lab =>
    if t.state = .NOTREACHED then t
    else t.setNum label fun n => { n with n_flags := { n.n_flags with NUMFALLTHROUGH := true } }
  | .op b =>
    if ISCONDBRANCH b then
      t.setNum label fun n => { n with n_flags := { n.n_flags with NUMCOND := true } }
    else t
  | .ps _ => t

def do_inst_label (t : Pass) (lnp : Line) : Pass :=
  match lnp.l_a with
  | .OPNUMLAB np =>
    let label := (t.num np).n_repl
    { (t.assign_label label).markLabel lnp.l_instr label with state := .KNOWN }
  | _ => t

variable (em : Sizes)

def tes_instr (t : Pass) (lnp : Line) (x y : Option Line) : Pass :=
  match lnp.l_instr with
  | .op_lab => t.do_inst_label lnp
  | .ps _ => t
  | .op instr =>
    if t.state = .NOTREACHED then t
    else
      let t := { t with stacktop := newStacktop em instr lnp.l_a x y t.stacktop }
      let t := if ISABRANCH instr then t.do_inst_label lnp else t
      if NON_CONTINUABLE instr then { t with state := .NOTREACHED, stacktop := 0 } else t

def step (t : Pass) (insptr : Line) : Pass :=
  { t.tes_instr em insptr t.oldlin t.oldlin2 with oldlin := some insptr, oldlin2 := t.oldlin }

def tes_pseudos (t : Pass) (pseudos : List Pseudo) : Pass :=
  (pseudos.flatMap Pseudo.labels).foldl (fun t np => t.assign_label (t.num np).n_repl) t

end Pass

def init_state (p : Proinf) : Pass := ⟨.KNOWN, 0, p.num, none, none⟩

variable (em : Sizes) (pseudos : List Pseudo) (p : Proinf)

def text : List Line := p.instrs.map p.line

def passed (i : Nat) : Pass :=
  ((text p).take i).foldl (Pass.step em) ((init_state p).tes_pseudos pseudos)

def do_tes : Proinf :=
  { p with num := ((text p).foldl (Pass.step em) ((init_state p).tes_pseudos pseudos)).num }

/-! ### What is assigned -/

namespace Pass

variable {em} {t : Pass} {m np : NumP} {l : Line} {x y : Option Line}

def size (t : Pass) (m : NumP) : Option Int :=
  if (t.num m).n_flags.NUMSET then some (t.num m).n_size else none

def joined (t : Pass) (m : NumP) : Int :=
  match t.size m with
  | none => t.stacktop
  | some n => if t.state = .NOTREACHED then n else min t.stacktop n

variable {change : Num → Num}

@[simp] theorem setNum_state (change : Num → Num) : (t.setNum np change).state = t.state := rfl

@[simp] theorem setNum_stacktop (change : Num → Num) :
    (t.setNum np change).stacktop = t.stacktop := rfl

theorem setNum_repl (kept : ∀ n, (change n).n_repl = n.n_repl)
    (other : NumP) : ((t.setNum np change).num other).n_repl = (t.num other).n_repl := by
  by_cases same : other = np
  · subst same
    simp [setNum, kept]
  · simp [setNum, same]

theorem setNum_size_of_ne (different : m ≠ np) :
    (t.setNum np change).size m = t.size m := by
  simp [size, setNum, different]

theorem setNum_size (value : ∀ n, (change n).n_size = n.n_size)
    (flag : ∀ n, (change n).n_flags.NUMSET = n.n_flags.NUMSET) :
    (t.setNum np change).size m = t.size m := by
  by_cases same : m = np
  · subst same
    simp [size, setNum, value, flag]
  · exact setNum_size_of_ne same

@[simp] theorem assign_label_state : (t.assign_label m).state = t.state := by
  unfold assign_label
  split
  · split
    · rfl
    · split <;> rfl
  · rfl

theorem assign_label_stacktop : (t.assign_label m).stacktop = t.joined m := by
  unfold assign_label joined size
  cases known : (t.num m).n_flags.NUMSET with
  | false => rfl
  | true =>
    simp only [if_true]
    by_cases unreached : t.state = .NOTREACHED
    · rw [if_pos (.inl unreached), if_pos unreached]
    · rw [if_neg unreached]
      by_cases more : t.stacktop > (t.num m).n_size
      · rw [if_pos (.inr more)]
        exact (Int.min_eq_right (Int.le_of_lt more)).symm
      · rw [if_neg (not_or.mpr ⟨unreached, more⟩)]
        have least : min t.stacktop (t.num m).n_size = t.stacktop :=
          Int.min_eq_left (Int.not_lt.mp more)
        split <;> exact least.symm

theorem assign_label_size : (t.assign_label m).size m = some (t.joined m) := by
  rw [← assign_label_stacktop]
  unfold assign_label
  cases known : (t.num m).n_flags.NUMSET with
  | false => simp [size, setNum]
  | true =>
    by_cases stays : t.state = .NOTREACHED ∨ t.stacktop > (t.num m).n_size
    · rw [if_pos stays]
      simp [size, known]
    · rw [if_neg stays]
      by_cases less : t.stacktop < (t.num m).n_size
      · rw [if_pos less]
        simp [size, setNum, known]
      · rw [if_neg less]
        have same : (t.num m).n_size = t.stacktop := by
          omega
        simp [size, known, same]

theorem assign_label_size_of_ne (different : m ≠ np) :
    (t.assign_label np).size m = t.size m := by
  unfold assign_label
  split
  · split
    · rfl
    · split
      · exact setNum_size_of_ne different
      · rfl
  · exact setNum_size_of_ne different

theorem assign_label_repl (other : NumP) :
    ((t.assign_label m).num other).n_repl = (t.num other).n_repl := by
  unfold assign_label
  split
  · split
    · rfl
    · split
      · refine setNum_repl ?_ other
        exact fun _ => rfl
      · rfl
  · refine setNum_repl ?_ other
    exact fun _ => rfl

/-- The flags of the message are no part of the sizes. -/
theorem markLabel_same (instr : Instr) (label : NumP) :
    (t.markLabel instr label).stacktop = t.stacktop ∧
      (∀ m, (t.markLabel instr label).size m = t.size m) ∧
      ∀ other, ((t.markLabel instr label).num other).n_repl = (t.num other).n_repl := by
  unfold markLabel
  split
  · split
    · exact ⟨rfl, fun _ => rfl, fun _ => rfl⟩
    · exact ⟨rfl, fun _ => setNum_size (fun _ => rfl) fun _ => rfl, setNum_repl fun _ => rfl⟩
  · split
    · exact ⟨rfl, fun _ => setNum_size (fun _ => rfl) fun _ => rfl, setNum_repl fun _ => rfl⟩
    · exact ⟨rfl, fun _ => rfl, fun _ => rfl⟩
  · exact ⟨rfl, fun _ => rfl, fun _ => rfl⟩

/-- What comes of a label that a line defines or branches to. -/
structure Installed (t : Pass) (m : NumP) (t' : Pass) : Prop where
  state : t'.state = .KNOWN
  stacktop : t'.stacktop = t.joined m
  size : t'.size m = some (t.joined m)
  others : ∀ other, other ≠ m → t'.size other = t.size other
  repl : ∀ other, (t'.num other).n_repl = (t.num other).n_repl

theorem do_inst_label_installed (instr : Instr) (np : NumP) :
    Installed t (t.num np).n_repl (t.do_inst_label ⟨instr, .OPNUMLAB np⟩) := by
  obtain ⟨top, sizes, repl⟩ :=
    @markLabel_same (t.assign_label (t.num np).n_repl) instr (t.num np).n_repl
  refine ⟨rfl, top.trans assign_label_stacktop, (sizes _).trans assign_label_size, ?_, ?_⟩
  · intro other different
    exact (sizes other).trans (assign_label_size_of_ne different)
  · intro other
    exact (repl other).trans (assign_label_repl other)

theorem do_inst_label_repl (other : NumP) :
    ((t.do_inst_label l).num other).n_repl = (t.num other).n_repl := by
  obtain ⟨instr, operand⟩ := l
  cases operand with
  | OPNUMLAB np => exact (do_inst_label_installed instr np).repl other
  | _ => rfl

theorem tes_instr_repl (other : NumP) :
    ((t.tes_instr em l x y).num other).n_repl = (t.num other).n_repl := by
  unfold tes_instr
  split
  · exact do_inst_label_repl other
  · rfl
  · split
    · rfl
    · dsimp only
      split <;> split <;> first | rfl | exact do_inst_label_repl other

end Pass

/-!
## Ways to a label and the size recorded for it

The ways in which control comes to an instruction of a procedure, each with the size that is
known of the element on top of the stack.  One walk along the text meets the ways that go back
in their last step only; the sizes recorded are sound for all ways exactly if the others bring
no less.
-/

/-- The case tables of the procedure, or a jump from elsewhere, lead to the label. -/
def InData (m : NumP) : Prop :=
  ∃ np ∈ pseudos.flatMap Pseudo.labels, (p.num np).n_repl = m

/-- The line at a position defines a label, named by its replacement. -/
def LabelAt (i : Nat) (m : NumP) : Prop :=
  ∃ np, (text p)[i]? = some ⟨.op_lab, .OPNUMLAB np⟩ ∧ (p.num np).n_repl = m

def BranchAt (i : Nat) (m : NumP) : Prop :=
  ∃ b np, (text p)[i]? = some ⟨.op b, .OPNUMLAB np⟩ ∧ ISABRANCH b = true ∧ (p.num np).n_repl = m

def TableJumpAt (i : Nat) : Prop :=
  ∃ operand, (text p)[i]? = some ⟨.op .op_csa, operand⟩ ∨
    (text p)[i]? = some ⟨.op .op_csb, operand⟩

def ContinuesAt (i : Nat) : Prop :=
  ∃ l, (text p)[i]? = some l ∧ l.l_instr.terminates = false

def previous : Nat → Option Line
  | 0 => none
  | i + 1 => (text p)[i]?

/-- The size known of the top behind a line, from that in front of it. -/
def topBehind (i : Nat) (top : Int) : Int :=
  match (text p)[i]? with
  | some ⟨.op instr, operand⟩ => (knownTop em instr operand (previous p i)).getD top
  | _ => top

/-- Control can come to a position with a size known of the top; nothing is known at the entry
and at a label that is reached from elsewhere. -/
inductive Way : Nat → Int → Prop where
  | entry : Way 0 0
  | outside {i m} : LabelAt p i m → InData pseudos p m → Way i 0
  | next {i top} : Way i top → ContinuesAt p i → Way (i + 1) (topBehind em p i top)
  | branch {i j m top} : Way i top → BranchAt p i m → LabelAt p j m → Way j (topBehind em p i top)
  | table {i j m top} : Way i top → TableJumpAt p i → LabelAt p j m → InData pseudos p m →
      Way j (topBehind em p i top)

/-- The size recorded for a label is at most what is known on every way to it. -/
def Sound : Prop :=
  ∀ i m top, LabelAt p i m → Way em pseudos p i top →
    ((do_tes em pseudos p).num m).n_size ≤ top

/-- A label is in front of the position, or the text in front of it continues. -/
def reached : Nat → Bool
  | 0 => true
  | i + 1 =>
    match (text p)[i]? with
    | some ⟨.op_lab, .OPNUMLAB _⟩ => true
    | some ⟨.op b, _⟩ => reached i && !NON_CONTINUABLE b
    | _ => reached i

/-- The ways that never go back.  A label to which nothing leads that stands before it counts as
reached with nothing known. -/
inductive Onward : Nat → Int → Prop where
  | entry : Onward 0 0
  | outside {i m} : LabelAt p i m → InData pseudos p m → Onward i 0
  | orphan {i m} : LabelAt p i m → reached p i = false → ¬InData pseudos p m →
      (∀ k < i, ¬(reached p k = true ∧ BranchAt p k m)) → Onward i 0
  | next {i top} : Onward i top → ContinuesAt p i → Onward (i + 1) (topBehind em p i top)
  | branch {i j m top} : Onward i top → BranchAt p i m → LabelAt p j m → i < j →
      Onward j (topBehind em p i top)

/-- The ways that go back in their last step at most. -/
inductive Arrives : Nat → Int → Prop where
  | onward {i top} : Onward em pseudos p i top → Arrives i top
  | back {i k m top} : Onward em pseudos p k top → BranchAt p k m → LabelAt p i m → i ≤ k →
      Arrives i (topBehind em p k top)

/-- A way that does not go back, along lines that leave the top alone. -/
inductive Clear (i : Nat) : Nat → Prop where
  | here : Clear i i
  | next {j} : Clear i j → (∀ top, topBehind em p j top = top) → ContinuesAt p j → Clear i (j + 1)
  | branch {j k m} : Clear i j → (∀ top, topBehind em p j top = top) → BranchAt p j m →
      LabelAt p k m → j < k → Clear i k

/-- Whatever a branch back to a label brings to a label behind, along lines that leave the top
alone, a way that goes back in its last step at most brings no more there. -/
def Steady : Prop :=
  ∀ k j i m m' top, Way em pseudos p k top → BranchAt p k m → LabelAt p j m → j ≤ k →
    Clear em p j i → LabelAt p i m' →
    ∃ least, least ≤ topBehind em p k top ∧ Arrives em pseudos p i least

/-! ### The lines of the text -/

variable {em pseudos p} {i j k : Nat} {m : NumP} {top : Int}

theorem LabelAt.topBehind (label : LabelAt p i m) (top : Int) : topBehind em p i top = top := by
  obtain ⟨np, here, -⟩ := label
  rw [Tes.topBehind, here]

theorem LabelAt.continues (label : LabelAt p i m) : ContinuesAt p i := by
  obtain ⟨np, here, -⟩ := label
  exact ⟨_, here, rfl⟩

theorem LabelAt.reached (label : LabelAt p i m) : reached p (i + 1) = true := by
  obtain ⟨np, here, -⟩ := label
  rw [Tes.reached, here]

theorem BranchAt.not_label (branch : BranchAt p i m) : ¬∃ m, LabelAt p i m := by
  obtain ⟨b, np, here, -⟩ := branch
  rintro ⟨_, _, there, -⟩
  exact nomatch here.symm.trans there

theorem topBehind_cases (i : Nat) :
    (∀ top, topBehind em p i top = top) ∨ ∃ set, 0 ≤ set ∧ ∀ top, topBehind em p i top = set := by
  unfold topBehind
  split
  · rename_i instr operand here
    cases known : knownTop em instr operand (previous p i) with
    | none => exact .inl fun top => rfl
    | some set => exact .inr ⟨set, knownTop_nonneg known, fun top => rfl⟩
  · exact .inl fun top => rfl

theorem topBehind_mono {low high : Int} (le : low ≤ high) :
    topBehind em p i low ≤ topBehind em p i high := by
  rcases @topBehind_cases em p i with leaves | ⟨set, -, sets⟩
  · rw [leaves, leaves]
    exact le
  · exact Int.le_of_eq ((sets low).trans (sets high).symm)

theorem topBehind_nonneg (nonneg : 0 ≤ top) : 0 ≤ topBehind em p i top := by
  rcases @topBehind_cases em p i with leaves | ⟨set, pos, sets⟩
  · rw [leaves]
    exact nonneg
  · rw [sets]
    exact pos

theorem reached_succ (entered : reached p i = true) (continues : ContinuesAt p i) :
    reached p (i + 1) = true := by
  obtain ⟨⟨instr, operand⟩, here, goesOn⟩ := continues
  rw [reached, here]
  cases instr with
  | op b =>
    have stays : NON_CONTINUABLE b = false := goesOn
    simp [entered, stays]
  | op_lab => cases operand <;> first | rfl | exact entered
  | ps _ => exact entered

theorem reached_of_succ (later : reached p (i + 1) = true) (inText : i < (text p).length)
    (noLabel : ¬∃ m, LabelAt p i m) : reached p i = true ∧ ContinuesAt p i := by
  have here := List.getElem?_eq_getElem inText
  generalize (text p)[i] = l at here
  obtain ⟨instr, operand⟩ := l
  rw [reached, here] at later
  cases instr with
  | op b =>
    obtain ⟨entered, stays⟩ := Bool.and_eq_true_iff.mp later
    exact ⟨entered, _, here, (Bool.not_eq_true' _).mp stays⟩
  | op_lab =>
    cases operand with
    | OPNUMLAB np => exact absurd ⟨_, np, here, rfl⟩ noLabel
    | _ => exact ⟨later, _, here, rfl⟩
  | ps _ => exact ⟨later, _, here, rfl⟩

theorem Way.entered (way : Way em pseudos p i top) : (∃ m, LabelAt p i m) ∨ reached p i = true := by
  induction way with
  | entry => exact .inr rfl
  | outside label => exact .inl ⟨_, label⟩
  | next _ continues ih =>
    rcases ih with ⟨m, label⟩ | entered
    · exact .inr label.reached
    · exact .inr (reached_succ entered continues)
  | branch _ _ label => exact .inl ⟨_, label⟩
  | table _ _ label => exact .inl ⟨_, label⟩

theorem Way.nonneg (way : Way em pseudos p i top) : 0 ≤ top := by
  induction way with
  | entry => exact Int.le_refl 0
  | outside => exact Int.le_refl 0
  | next _ _ ih => exact topBehind_nonneg ih
  | branch _ _ _ ih => exact topBehind_nonneg ih
  | table _ _ _ _ ih => exact topBehind_nonneg ih

theorem Way.clear (way : Way em pseudos p j top) (clear : Clear em p j i) :
    Way em pseudos p i top := by
  induction clear with
  | here => exact way
  | next _ leaves continues ih =>
    have next := ih.next continues
    rwa [leaves] at next
  | branch _ leaves branch label _ ih =>
    have jump := ih.branch branch label
    rwa [leaves] at jump

/-! ### The walk along the text -/

theorem passed_succ {l : Line} (here : (text p)[i]? = some l) :
    passed em pseudos p (i + 1) = (passed em pseudos p i).step em l := by
  rw [passed, List.take_add_one, here, List.foldl_append]
  rfl

theorem passed_length : passed em pseudos p (text p).length =
    (text p).foldl (Pass.step em) ((init_state p).tes_pseudos pseudos) := by
  rw [passed, List.take_length]

structure Started (data : NumP → Prop) (p : Proinf) (t : Pass) : Prop where
  state : t.state = .KNOWN
  stacktop : t.stacktop = 0
  oldlin : t.oldlin = none
  repl : ∀ np, (t.num np).n_repl = (p.num np).n_repl
  size : ∀ m, t.size m = none ∧ ¬data m ∨ t.size m = some 0 ∧ data m

theorem Pass.assign_label_oldlin (t : Pass) (m : NumP) : (t.assign_label m).oldlin = t.oldlin := by
  unfold assign_label
  split
  · split
    · rfl
    · split <;> rfl
  · rfl

theorem Started.assign {data : NumP → Prop} {t : Pass} (started : Started data p t) (m : NumP) :
    Started (fun other => data other ∨ other = m) p (t.assign_label m) := by
  have joined : t.joined m = 0 := by
    unfold Pass.joined
    rcases started.size m with ⟨unset, -⟩ | ⟨set, -⟩
    · rw [unset]
      exact started.stacktop
    · rw [set, started.state, started.stacktop]
      rfl
  refine ⟨Pass.assign_label_state.trans started.state, Pass.assign_label_stacktop.trans joined,
    (Pass.assign_label_oldlin t m).trans started.oldlin,
    fun np => (Pass.assign_label_repl np).trans (started.repl np), fun other => ?_⟩
  by_cases same : other = m
  · subst same
    exact .inr ⟨by rw [Pass.assign_label_size, joined], .inr rfl⟩
  · rw [Pass.assign_label_size_of_ne same]
    rcases started.size other with ⟨unset, absent⟩ | ⟨set, present⟩
    · exact .inl ⟨unset, not_or.mpr ⟨absent, same⟩⟩
    · exact .inr ⟨set, .inl present⟩

theorem Started.labels {data : NumP → Prop} {t : Pass} (started : Started data p t)
    (labels : List NumP) :
    Started (fun m => data m ∨ ∃ np ∈ labels, (p.num np).n_repl = m) p
      (labels.foldl (fun t np => t.assign_label (t.num np).n_repl) t) := by
  induction labels generalizing data t with
  | nil =>
    refine ⟨started.state, started.stacktop, started.oldlin, started.repl, fun m => ?_⟩
    simpa using started.size m
  | cons np rest ih =>
    have later := ih (started.assign (t.num np).n_repl)
    refine ⟨later.state, later.stacktop, later.oldlin, later.repl, fun m => ?_⟩
    have size := later.size m
    rw [started.repl np] at size
    have same : (data m ∨ ∃ other ∈ np :: rest, (p.num other).n_repl = m) ↔
        (data m ∨ m = (p.num np).n_repl) ∨ ∃ other ∈ rest, (p.num other).n_repl = m := by
      rw [List.exists_mem_cons_iff, or_assoc, @eq_comm _ m]
    rw [same]
    rw [List.foldl_cons, started.repl np]
    exact size

def Fresh (p : Proinf) : Prop := ∀ np, (p.num np).n_flags.NUMSET = false

theorem passed_started (fresh : Fresh p) :
    Started (InData pseudos p) p (passed em pseudos p 0) := by
  have empty : Started (fun _ => False) p (init_state p) := by
    refine ⟨rfl, rfl, rfl, fun _ => rfl, fun m => .inl ⟨?_, id⟩⟩
    rw [Pass.size, init_state, fresh m]
    rfl
  have started := empty.labels (pseudos.flatMap Pseudo.labels)
  refine ⟨started.state, started.stacktop, started.oldlin, started.repl, fun m => ?_⟩
  have size := started.size m
  rw [false_or] at size
  exact size

end AckFormal.Opt.Tes
