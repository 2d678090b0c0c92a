import AckFormal.Opt.TesTurns
import Mathlib.Data.Nat.Init

/-!
# When the recorded sizes are sound

The size recorded for a label is the least of those that the ways of the walk bring to it.  It
is at most what every way brings exactly if no branch back brings less to a label behind.
-/

namespace AckFormal.Opt.Tes

variable {em : Sizes} {pseudos : List Pseudo} {p : Proinf} {i j k : Nat} {m : NumP} {top : Int}

/-! ### Along the text -/

/-- The walk knows the size just where a label or the text before leads to it. -/
theorem passed_known (fresh : Fresh p) (inText : i ≤ (text p).length) :
    (passed em pseudos p i).state = .KNOWN ↔ reached p i = true := by
  induction i with
  | zero => exact ⟨fun _ => rfl, fun _ => (passed_started fresh).state⟩
  | succ i ih =>
    have known := ih (Nat.le_of_lt inText)
    have instr : ∀ {b : Mnem} {operand : Operand} {mid : Pass},
        (text p)[i]? = some ⟨.op b, operand⟩ → (passed em pseudos p i).state = .KNOWN →
        mid.state = .KNOWN → Executed b mid (passed em pseudos p (i + 1)) →
        ((passed em pseudos p (i + 1)).state = .KNOWN ↔ reached p (i + 1) = true) := by
      intro b operand mid here state middle executed
      rw [reached, here]
      simp only [known.mp state]
      cases stops : NON_CONTINUABLE b with
      | false => exact ⟨fun _ => rfl, fun _ => (executed.goesOn stops).1.trans middle⟩
      | true =>
        have ends := (executed.ends stops).1
        exact ⟨fun there => absurd (ends.symm.trans there) (by decide),
          fun goes => absurd goes Bool.false_ne_true⟩
    cases turn fresh inText (passed_regular fresh (Nat.le_of_lt inText)) with
    | label found installed => exact ⟨fun _ => found.reached, fun _ => installed.state⟩
    | silent _ _ _ same skipped => rw [skipped.state, same, known]
    | @unreached b _ here state skipped =>
      have apart : reached p i = false := by
        rw [← Bool.not_eq_true, ← known, state]
        decide
      rw [skipped.state, state, reached, here]
      simp [apart]
    | plain here state _ executed => exact @instr _ _ (arrived em pseudos p i) here state state executed
    | branch here state _ installed executed => exact instr here state installed.state executed

/-- Behind a line that the walk reaches and goes on behind, it has what is known of the top. -/
theorem stacktop_behind (fresh : Fresh p) (inText : i < (text p).length) (noLabel : ¬∃ m, LabelAt p i m)
    (entered : reached p i = true) (continues : ContinuesAt p i) :
    (passed em pseudos p (i + 1)).stacktop =
      topBehind em p i (passed em pseudos p i).stacktop := by
  have regular := @passed_regular em pseudos p i fresh (Nat.le_of_lt inText)
  have state := (@passed_known em pseudos p i fresh (Nat.le_of_lt inText)).mpr entered
  obtain ⟨l, there, stays⟩ := continues
  cases turn fresh inText regular with
  | label found => exact absurd ⟨_, found⟩ noLabel
  | silent _ _ leaves _ skipped => rw [leaves, skipped.stacktop]
  | unreached _ away => exact nomatch state.symm.trans away
  | plain here _ _ executed =>
    obtain rfl := Option.some.inj (here.symm.trans there)
    exact (executed.goesOn stays).2
  | @branch b operand here _ m found mid installed executed =>
    obtain rfl := Option.some.inj (here.symm.trans there)
    -- a branch that is gone on behind is conditional, and nothing is known behind it
    have cond : ISCONDBRANCH b = true := by
      obtain ⟨b', np, again, jumps, -⟩ := found
      obtain rfl : b = b' := by
        cases Option.some.inj (here.symm.trans again)
        rfl
      exact condbranch_of_continuable jumps stays
    have nothing : topBehind em p i (passed em pseudos p i).stacktop = 0 := by
      rw [topBehind, here]
      simp only [knownTop_condbranch cond, Option.getD_some]
    have below : (arrived em pseudos p i).joined m = 0 := by
      have nonneg := (regular.arrived state).joined m
      have atMost := @joined_le_stacktop m (arrived em pseudos p i) state
      have zero : (arrived em pseudos p i).stacktop = 0 := nothing
      omega
    rw [(executed.goesOn stays).2, installed.stacktop, below, nothing]

theorem size_succ (fresh : Fresh p) (inText : i < (text p).length) {n : Int}
    (known : (passed em pseudos p i).size m = some n) :
    ∃ n' ≤ n, (passed em pseudos p (i + 1)).size m = some n' := by
  have joins : ∀ {t t' : Pass} {other : NumP}, t.size m = some n → Pass.Installed t other t' →
      ∃ n' ≤ n, t'.size m = some n' := by
    intro t t' other known installed
    by_cases same : m = other
    · subst same
      exact ⟨_, joined_le_size known, installed.size⟩
    · exact ⟨n, Int.le_refl n, (installed.others m same).trans known⟩
  cases turn fresh inText (passed_regular fresh (Nat.le_of_lt inText)) with
  | label _ installed => exact joins known installed
  | silent _ _ _ _ skipped => exact ⟨n, Int.le_refl n, (skipped.size m).trans known⟩
  | unreached _ _ skipped => exact ⟨n, Int.le_refl n, (skipped.size m).trans known⟩
  | plain _ _ _ executed => exact ⟨n, Int.le_refl n, (executed.size m).trans known⟩
  | branch _ _ _ installed executed =>
    obtain ⟨n', le, set⟩ := @joins (arrived em pseudos p i) _ _ known installed
    exact ⟨n', le, (executed.size m).trans set⟩

theorem size_later (fresh : Fresh p) (le : i ≤ j) (inText : j ≤ (text p).length) {n : Int}
    (known : (passed em pseudos p i).size m = some n) :
    ∃ n' ≤ n, (passed em pseudos p j).size m = some n' := by
  induction j, le using Nat.le_induction with
  | base => exact ⟨n, Int.le_refl n, known⟩
  | succ j _ ih =>
    obtain ⟨n', atMost, set⟩ := ih (Nat.le_of_lt inText)
    obtain ⟨n'', less, set'⟩ := size_succ fresh inText set
    exact ⟨n'', Int.le_trans less atMost, set'⟩

theorem LabelAt.lt (label : LabelAt p i m) : i < (text p).length := by
  obtain ⟨np, here, -⟩ := label
  exact (List.getElem?_eq_some_iff.mp here).1

theorem BranchAt.lt (branch : BranchAt p i m) : i < (text p).length := by
  obtain ⟨b, np, here, -⟩ := branch
  exact (List.getElem?_eq_some_iff.mp here).1

theorem LabelAt.unique {m' : NumP} (label : LabelAt p i m) (label' : LabelAt p i m') : m = m' := by
  obtain ⟨np, here, rfl⟩ := label
  obtain ⟨np', there, rfl⟩ := label'
  cases Option.some.inj (here.symm.trans there)
  rfl

theorem BranchAt.unique {m' : NumP} (branch : BranchAt p i m) (branch' : BranchAt p i m') :
    m = m' := by
  obtain ⟨b, np, here, -, rfl⟩ := branch
  obtain ⟨b', np', there, -, rfl⟩ := branch'
  cases Option.some.inj (here.symm.trans there)
  rfl

theorem installed_label (fresh : Fresh p) (label : LabelAt p i m) :
    Pass.Installed (passed em pseudos p i) m (passed em pseudos p (i + 1)) := by
  cases turn fresh label.lt (passed_regular fresh (Nat.le_of_lt label.lt)) with
  | label found installed =>
    cases label.unique found
    exact installed
  | silent noLabel => exact absurd ⟨m, label⟩ noLabel
  | unreached here => exact absurd ⟨m, label⟩ (no_label_of_instr here)
  | plain here => exact absurd ⟨m, label⟩ (no_label_of_instr here)
  | branch here => exact absurd ⟨m, label⟩ (no_label_of_instr here)

/-- What a branch that the walk reaches records for its label. -/
theorem size_branch (fresh : Fresh p) (branch : BranchAt p i m) (entered : reached p i = true) :
    (passed em pseudos p (i + 1)).size m = some ((arrived em pseudos p i).joined m) := by
  have state := (@passed_known em pseudos p i fresh (Nat.le_of_lt branch.lt)).mpr entered
  cases turn fresh branch.lt (passed_regular fresh (Nat.le_of_lt branch.lt)) with
  | label found => exact absurd ⟨_, found⟩ branch.not_label
  | silent _ noBranch => exact absurd branch (noBranch m)
  | unreached _ away => exact nomatch state.symm.trans away
  | plain _ _ noBranch => exact absurd branch (noBranch m)
  | branch _ _ found installed executed =>
    cases branch.unique found
    exact (executed.size m).trans installed.size

/-! ### Ways and the walk -/

variable (em pseudos p) in
/-- The walk knows no more than the size at a position; at a label it is what the label keeps. -/
inductive Low (i : Nat) (top : Int) : Prop where
  | label {m : NumP} (found : LabelAt p i m) (le : (passed em pseudos p (i + 1)).stacktop ≤ top)
  | line (noLabel : ¬∃ m, LabelAt p i m) (entered : reached p i = true)
      (le : (passed em pseudos p i).stacktop ≤ top)

theorem Low.of_reached (fresh : Fresh p) (inText : i ≤ (text p).length)
    (entered : reached p i = true) (le : (passed em pseudos p i).stacktop ≤ top) :
    Low em pseudos p i top := by
  by_cases isLabel : ∃ m, LabelAt p i m
  · obtain ⟨m, label⟩ := isLabel
    refine .label label ?_
    rw [(installed_label fresh label).stacktop]
    exact Int.le_trans (joined_le_stacktop ((passed_known fresh inText).mpr entered)) le
  · exact .line isLabel entered le

theorem Low.of_size (fresh : Fresh p) (label : LabelAt p j m) (before : i ≤ j) {n : Int}
    (known : (passed em pseudos p i).size m = some n) (le : n ≤ top) :
    Low em pseudos p j top := by
  obtain ⟨n', atMost, set⟩ := size_later fresh before (Nat.le_of_lt label.lt) known
  refine .label label ?_
  rw [(installed_label fresh label).stacktop]
  exact Int.le_trans (joined_le_size set) (Int.le_trans atMost le)

theorem ContinuesAt.lt (continues : ContinuesAt p i) : i < (text p).length := by
  obtain ⟨l, here, -⟩ := continues
  exact (List.getElem?_eq_some_iff.mp here).1

theorem Low.next (fresh : Fresh p) (low : Low em pseudos p i top) (continues : ContinuesAt p i) :
    Low em pseudos p (i + 1) (topBehind em p i top) := by
  cases low with
  | label found le =>
    rw [found.topBehind]
    exact .of_reached fresh continues.lt found.reached le
  | line noLabel entered le =>
    refine .of_reached fresh continues.lt (reached_succ entered continues) ?_
    rw [stacktop_behind fresh continues.lt noLabel entered continues]
    exact topBehind_mono le

theorem Low.branch (fresh : Fresh p) (low : Low em pseudos p i top) (branch : BranchAt p i m)
    (label : LabelAt p j m) (onward : i < j) : Low em pseudos p j (topBehind em p i top) := by
  cases low with
  | label found => exact absurd ⟨_, found⟩ branch.not_label
  | line _ entered le =>
    refine .of_size fresh label onward (size_branch fresh branch entered) ?_
    have state := (@passed_known em pseudos p i fresh (Nat.le_of_lt branch.lt)).mpr entered
    exact Int.le_trans (@joined_le_stacktop m (arrived em pseudos p i) state) (topBehind_mono le)

theorem Low.data (fresh : Fresh p) (label : LabelAt p i m) (data : InData pseudos p m)
    (nonneg : 0 ≤ top) : Low em pseudos p i top := by
  rcases (@passed_started em pseudos p fresh).size m with ⟨-, absent⟩ | ⟨set, -⟩
  · exact absurd data absent
  · exact .of_size fresh label (Nat.zero_le i) set nonneg

/-! ### The sizes that the walk meets -/

variable (p) in
def DefinedOnce : Prop := ∀ i j m, LabelAt p i m → LabelAt p j m → i = j

variable (em pseudos p) in
/-- A way of the walk has brought the size to the label before a position. -/
inductive Sent (i : Nat) (m : NumP) : Int → Prop where
  | data (inData : InData pseudos p m) : Sent i m 0
  | branch {k : Nat} {top : Int} (before : k < i) (entered : reached p k = true)
      (way : Onward em pseudos p k top) (branch : BranchAt p k m) :
      Sent i m (topBehind em p k top)
  | label {k : Nat} {top : Int} (before : k < i) (way : Onward em pseudos p k top)
      (label : LabelAt p k m) : Sent i m top

theorem Sent.later (sent : Sent em pseudos p i m top) : Sent em pseudos p (i + 1) m top := by
  cases sent with
  | data inData => exact .data inData
  | branch before entered way branch => exact .branch (Nat.lt_succ_of_lt before) entered way branch
  | label before way label => exact .label (Nat.lt_succ_of_lt before) way label

/-- At a label the size is brought by a branch or by the lines in front, or nothing leads to it
that the walk has met. -/
theorem onward_label (fresh : Fresh p) (once : DefinedOnce p) (label : LabelAt p i m)
    (here : reached p i = true → Onward em pseudos p i (passed em pseudos p i).stacktop)
    (sizes : ∀ m n, (passed em pseudos p i).size m = some n → Sent em pseudos p i m n) :
    Onward em pseudos p i (passed em pseudos p (i + 1)).stacktop := by
  have inText := Nat.le_of_lt label.lt
  have recorded : ∀ {n}, (passed em pseudos p i).size m = some n → Onward em pseudos p i n := by
    intro n known
    cases sizes m n known with
    | data inData => exact .outside label inData
    | branch before _ way branch => exact way.branch branch label before
    | label before _ there => exact absurd (once _ _ m there label) (Nat.ne_of_lt before)
  rw [(installed_label fresh label).stacktop]
  cases entered : reached p i with
  | true =>
    rcases joined_cases (passed em pseudos p i) m with old | new
    · exact recorded old
    · exact new ▸ here entered
  | false =>
    have state : (passed em pseudos p i).state = .NOTREACHED := by
      cases known : (passed em pseudos p i).state with
      | NOTREACHED => rfl
      | KNOWN => exact nomatch entered.symm.trans ((passed_known fresh inText).mp known)
    cases known : (passed em pseudos p i).size m with
    | some n =>
      have joined : (passed em pseudos p i).joined m = n := by
        unfold Pass.joined
        rw [known]
        exact if_pos state
      rw [joined]
      exact recorded known
    | none =>
      have joined : (passed em pseudos p i).joined m = 0 := by
        unfold Pass.joined
        rw [known]
        exact (passed_regular fresh inText).unreached state
      rw [joined]
      by_cases inData : InData pseudos p m
      · exact .outside label inData
      · refine .orphan label entered inData ?_
        rintro k before ⟨met, branch⟩
        obtain ⟨n, -, set⟩ := size_later fresh before inText (size_branch fresh branch met)
        exact nomatch known.symm.trans set

/-- What the walk knows in front of a line, and what it has recorded there, is what its ways
bring. -/
theorem onward_passed (fresh : Fresh p) (once : DefinedOnce p) (inText : i ≤ (text p).length) :
    (reached p i = true → Onward em pseudos p i (passed em pseudos p i).stacktop) ∧
      ∀ m n, (passed em pseudos p i).size m = some n → Sent em pseudos p i m n := by
  induction i with
  | zero =>
    have started := @passed_started em pseudos p fresh
    refine ⟨fun _ => started.stacktop ▸ .entry, fun m n known => ?_⟩
    rcases started.size m with ⟨unset, -⟩ | ⟨set, inData⟩
    · exact nomatch unset.symm.trans known
    · cases Option.some.inj (set.symm.trans known)
      exact .data inData
  | succ i ih =>
    obtain ⟨here, sizes⟩ := ih (Nat.le_of_lt inText)
    refine ⟨fun later => ?_, fun m n known => ?_⟩
    · by_cases isLabel : ∃ m, LabelAt p i m
      · obtain ⟨m, label⟩ := isLabel
        have next := (onward_label fresh once label here sizes).next label.continues
        rwa [label.topBehind] at next
      · obtain ⟨entered, continues⟩ := reached_of_succ later inText isLabel
        rw [stacktop_behind fresh inText isLabel entered continues]
        exact (here entered).next continues
    · cases turn fresh inText (passed_regular fresh (Nat.le_of_lt inText)) with
      | @label m' label installed =>
        by_cases same : m = m'
        · subst same
          have top := installed.size.symm.trans known
          rw [← installed.stacktop] at top
          cases Option.some.inj top
          exact .label (Nat.lt_succ_self i) (onward_label fresh once label here sizes) label
        · exact (sizes m n ((installed.others m same).symm.trans known)).later
      | silent _ _ _ _ skipped => exact (sizes m n ((skipped.size m).symm.trans known)).later
      | unreached _ _ skipped => exact (sizes m n ((skipped.size m).symm.trans known)).later
      | plain _ _ _ executed => exact (sizes m n ((executed.size m).symm.trans known)).later
      | @branch _ _ _ state m' branch mid installed executed =>
        rw [executed.size] at known
        by_cases same : m = m'
        · subst same
          rcases joined_cases (arrived em pseudos p i) m with old | new
          · cases Option.some.inj (installed.size.symm.trans known)
            exact (sizes m _ old).later
          · cases Option.some.inj (installed.size.symm.trans known)
            rw [new]
            have entered := (passed_known fresh (Nat.le_of_lt inText)).mp state
            exact .branch (Nat.lt_succ_self i) entered (here entered) branch
        · exact (sizes m n ((installed.others m same).symm.trans known)).later

/-! ### The size recorded in the end -/

section

variable (fresh : Fresh p)
include fresh

/-- The walk records a size for every label that is defined. -/
theorem recorded (label : LabelAt p i m) :
    (passed em pseudos p (text p).length).size m =
      some (((do_tes em pseudos p).num m).n_size) := by
  obtain ⟨n, -, set⟩ := size_later fresh label.lt (Nat.le_refl _) (installed_label fresh label).size
  have last : (do_tes em pseudos p).num = (passed em pseudos p (text p).length).num := by
    rw [passed_length]
    rfl
  rw [last]
  unfold Pass.size at set ⊢
  split at set
  · rw [if_pos ‹_›]
  · exact nomatch set

theorem recorded_le (label : LabelAt p i m) (le : j ≤ (text p).length) {n : Int}
    (known : (passed em pseudos p j).size m = some n) :
    ((do_tes em pseudos p).num m).n_size ≤ n := by
  obtain ⟨n', atMost, set⟩ := size_later fresh le (Nat.le_refl _) known
  cases Option.some.inj ((recorded fresh label).symm.trans set)
  exact atMost

theorem Low.recorded_le (label : LabelAt p i m) (low : Low em pseudos p i top) :
    ((do_tes em pseudos p).num m).n_size ≤ top := by
  cases low with
  | label found le =>
    have installed := @installed_label em pseudos p i m fresh label
    rw [installed.stacktop] at le
    exact Int.le_trans (Tes.recorded_le fresh label label.lt installed.size) le
  | line noLabel => exact absurd ⟨m, label⟩ noLabel

theorem Onward.low (once : DefinedOnce p) (way : Onward em pseudos p i top) :
    Low em pseudos p i top := by
  induction way with
  | entry =>
    refine .of_reached fresh (Nat.zero_le _) rfl ?_
    exact Int.le_of_eq (passed_started fresh).stacktop
  | outside label data => exact .data fresh label data (Int.le_refl 0)
  | @orphan i m label apart absent unsent =>
    have inText := Nat.le_of_lt label.lt
    have state : (passed em pseudos p i).state = .NOTREACHED := by
      cases known : (passed em pseudos p i).state with
      | NOTREACHED => rfl
      | KNOWN => exact nomatch apart.symm.trans ((passed_known fresh inText).mp known)
    have unset : (passed em pseudos p i).size m = none := by
      cases known : (passed em pseudos p i).size m with
      | none => rfl
      | some n =>
        cases (onward_passed fresh once inText).2 m n known with
        | data inData => exact absurd inData absent
        | branch before entered _ branch => exact absurd ⟨entered, branch⟩ (unsent _ before)
        | label before _ there => exact absurd (once _ _ m there label) (Nat.ne_of_lt before)
    refine .label label ?_
    rw [(installed_label fresh label).stacktop]
    unfold Pass.joined
    rw [unset]
    exact Int.le_of_eq ((passed_regular fresh inText).unreached state)
  | next _ continues ih => exact ih.next fresh continues
  | branch _ branch label onward ih => exact ih.branch fresh branch label onward

/-- The recorded size is at most what a way of the walk brings. -/
theorem Arrives.recorded_le (once : DefinedOnce p) (label : LabelAt p i m)
    (arrives : Arrives em pseudos p i top) : ((do_tes em pseudos p).num m).n_size ≤ top := by
  cases arrives with
  | onward way => exact (way.low fresh once).recorded_le fresh label
  | @back k m' before way branch label' _ =>
    cases label.unique label'
    cases way.low fresh once with
    | label found => exact absurd ⟨_, found⟩ branch.not_label
    | line _ entered le =>
      have state := (@passed_known em pseudos p k fresh (Nat.le_of_lt branch.lt)).mpr entered
      have joined := @joined_le_stacktop m (arrived em pseudos p k) state
      have sent := @Tes.recorded_le em pseudos p i (k + 1) m fresh label branch.lt _
        (size_branch fresh branch entered)
      exact Int.le_trans sent (Int.le_trans joined (topBehind_mono le))

theorem arrives_recorded (once : DefinedOnce p) (label : LabelAt p i m) :
    Arrives em pseudos p i ((do_tes em pseudos p).num m).n_size := by
  have sent := (onward_passed fresh once (Nat.le_refl _)).2 m _
    (@recorded em pseudos p i m fresh label)
  generalize ((do_tes em pseudos p).num m).n_size = n at sent
  cases sent with
  | data inData => exact .onward (.outside label inData)
  | @branch k top _ _ way branch =>
    by_cases onward : k < i
    · exact .onward (way.branch branch label onward)
    · exact .back way branch label (Nat.le_of_not_lt onward)
  | label _ way there =>
    cases once _ _ m there label
    exact .onward way

end

/-! ### All ways -/

/-- Where the line sets the top, the walk knows what comes behind, whatever is in front. -/
theorem Way.low_here (fresh : Fresh p) (way : Way em pseudos p i top)
    (noLabel : ¬∃ m, LabelAt p i m) (inText : i ≤ (text p).length) :
    Low em pseudos p i (passed em pseudos p i).stacktop :=
  .of_reached fresh inText (way.entered.resolve_left noLabel) (Int.le_refl _)

/-- A size that the walk does not know to be at hand is brought by a branch back. -/
theorem Way.low_or_back (fresh : Fresh p) (way : Way em pseudos p i top) :
    Low em pseudos p i top ∨
      ∃ k j m before, Way em pseudos p k before ∧ BranchAt p k m ∧ LabelAt p j m ∧ j ≤ k ∧
        Clear em p j i ∧ top = topBehind em p k before := by
  induction way with
  | entry =>
    left
    refine .of_reached fresh (Nat.zero_le _) rfl ?_
    exact Int.le_of_eq (passed_started fresh).stacktop
  | outside label data => exact .inl (.data fresh label data (Int.le_refl 0))
  | @next i top way continues ih =>
    rcases ih with low | ⟨k, j, m, before, start, branch, label, back, clear, same⟩
    · exact .inl (low.next fresh continues)
    · rcases @topBehind_cases em p i with leaves | ⟨set, -, sets⟩
      · rw [leaves]
        exact .inr ⟨k, j, m, before, start, branch, label, back, clear.next leaves continues, same⟩
      · have noLabel : ¬∃ m, LabelAt p i m := by
          rintro ⟨m', label'⟩
          have one := (label'.topBehind (set + 1)).symm.trans (sets (set + 1))
          omega
        have low := (way.low_here fresh noLabel (Nat.le_of_lt continues.lt)).next fresh continues
        rw [sets] at low ⊢
        exact .inl low
  | @branch i j m top way branch label ih =>
    by_cases onward : i < j
    · rcases ih with low | ⟨k, j', m', before, start, branch', label', back, clear, same⟩
      · exact .inl (low.branch fresh branch label onward)
      · rcases @topBehind_cases em p i with leaves | ⟨set, -, sets⟩
        · rw [leaves]
          exact .inr ⟨k, j', m', before, start, branch', label', back,
            clear.branch leaves branch label onward, same⟩
        · have low := (way.low_here fresh branch.not_label (Nat.le_of_lt branch.lt)).branch fresh
            branch label onward
          rw [sets] at low ⊢
          exact .inl low
    · exact .inr ⟨i, j, m, top, way, branch, label, Nat.le_of_not_lt onward, .here, rfl⟩
  | table way jump label data =>
    exact .inl (.data fresh label data (topBehind_nonneg way.nonneg))

/-! ### The type of `n_size` -/

/-- The numbers that an operand can hold: a `short`, or one of the minis. -/
def InRange : Operand → Prop
  | .OPSHORT n => -2 ^ 15 ≤ n ∧ n < 2 ^ 15
  | .OPMINI n => -100 ≤ n ∧ n < 148
  | _ => True

theorem zero_in_range : -2 ^ 15 < (0 : Int) ∧ (0 : Int) < 2 ^ 15 := by decide

theorem arg_in_range {operand : Operand} {n : Int} (range : InRange operand)
    (word : em.wordsize < 2 ^ 14) (arg : operand.arg em = some n) :
    -2 ^ 15 < n ∧ n < 2 ^ 15 := by
  cases operand with
  | OPSHORT short =>
    obtain ⟨low, high⟩ := range
    cases arg
    split <;> omega
  | OPMINI mini =>
    obtain ⟨low, high⟩ := range
    cases arg
    split
    · omega
    · split <;> omega
  | _ => exact nomatch arg

theorem locSize_in_range {x : Option Line} (range : ∀ l, x = some l → InRange l.l_a)
    (word : em.wordsize < 2 ^ 14) : locSize em x < 2 ^ 15 := by
  unfold locSize
  split
  · obtain ⟨low, high⟩ := range _ rfl
    split <;> omega
  · decide

theorem value_in_range {instr : Mnem} {operand : Operand} {x : Option Line}
    (range : InRange operand) (before : ∀ l, x = some l → InRange l.l_a)
    (word : em.wordsize < 2 ^ 14) (pointer : em.pointersize < 2 ^ 15) (size : Size) :
    -2 ^ 15 < size.value em instr operand x none ∧
      size.value em instr operand x none < 2 ^ 15 := by
  have other : size ≠ .a → 0 ≤ size.value em instr operand x none := Size.value_nonneg
  cases size with
  | a =>
    simp only [Size.value]
    cases arg : operand.arg em with
    | none => exact zero_in_range
    | some n =>
      have fits := arg_in_range range word arg
      dsimp only
      split
      · exact zero_in_range
      · exact fits
  | w | d | p =>
    simp only [Size.value]
    omega
  | x =>
    have fits := locSize_in_range before word
    have nonneg := other nofun
    exact ⟨by omega, fits⟩
  | y | unknown => exact zero_in_range

/-! ### A loop that comes back with less -/

def loopNum (np : NumP) : Num := ⟨0, np, ⟨false, false, false, false, false, false, false, false⟩, 0, none⟩

/-- A double word stands at both labels at first; the way back to the first one brings two
words. -/
def loopLine : LineP → Line
  | 0 => ⟨.op .op_ldc, .OPMINI 7⟩
  | 1 => ⟨.op_lab, .OPNUMLAB 1⟩
  | 2 => ⟨.op .op_inl, .OPMINI (-12)⟩
  | 3 => ⟨.op_lab, .OPNUMLAB 2⟩
  | 4 => ⟨.op .op_sdl, .OPMINI (-4)⟩
  | 5 => ⟨.op .op_lol, .OPMINI (-6)⟩
  | 6 => ⟨.op .op_zeq, .OPNUMLAB 3⟩
  | 7 => ⟨.op .op_lol, .OPMINI (-8)⟩
  | 8 => ⟨.op .op_zeq, .OPNUMLAB 4⟩
  | 9 => ⟨.op .op_lol, .OPMINI (-10)⟩
  | 10 => ⟨.op .op_lol, .OPMINI (-14)⟩
  | 11 => ⟨.op .op_bra, .OPNUMLAB 1⟩
  | 12 => ⟨.op_lab, .OPNUMLAB 4⟩
  | 13 => ⟨.op .op_ldc, .OPMINI 8⟩
  | 14 => ⟨.op .op_bra, .OPNUMLAB 2⟩
  | 15 => ⟨.op_lab, .OPNUMLAB 3⟩
  | _ => ⟨.op .op_ret, .OPMINI 0⟩

def loop : Proinf := ⟨[1, 2, 3, 4], loopNum, List.range 17, loopLine⟩

theorem loop_once : DefinedOnce loop := by
  have nodup : (text loop).Nodup := by decide
  intro i j m first second
  obtain ⟨np, here, name⟩ := id first
  obtain ⟨np', there, name'⟩ := id second
  have same : np = np' := name.trans name'.symm
  exact (List.getElem?_inj first.lt nodup).mp (here.trans (same ▸ there.symm))

theorem loop_back : Way ⟨2, 2⟩ [] loop 3 2 := by
  have goesOn : ∀ i < 11, (text loop)[i]?.map (fun l => l.l_instr.terminates) = some false := by
    decide
  have continues : ∀ i < 11, ContinuesAt loop i := by
    intro i before
    obtain ⟨l, here, stays⟩ := Option.map_eq_some_iff.mp (goesOn i before)
    exact ⟨l, here, stays⟩
  have front : ∀ i ≤ 10, ∃ top, Way ⟨2, 2⟩ [] loop i top := by
    intro i before
    induction i with
    | zero => exact ⟨0, .entry⟩
    | succ i ih =>
      obtain ⟨top, way⟩ := ih (Nat.le_of_lt before)
      exact ⟨_, way.next (continues i (Nat.lt_succ_of_lt before))⟩
  obtain ⟨top, way⟩ := front 10 (Nat.le_refl 10)
  have words : Way ⟨2, 2⟩ [] loop 11 2 := way.next (continues 10 (by decide))
  have first : Way ⟨2, 2⟩ [] loop 1 2 :=
    @Way.branch _ _ _ 11 1 1 2 words ⟨.op_bra, 1, rfl, rfl, rfl⟩ ⟨1, rfl, rfl⟩
  have behind : Way ⟨2, 2⟩ [] loop 2 2 := first.next (continues 1 (by decide))
  exact behind.next (continues 2 (by decide))

/-- The recorded sizes are sound exactly if the branches back bring no less than the walk has
met. -/
theorem tes_sound_iff (fresh : Fresh p) (once : DefinedOnce p) :
    Sound em pseudos p ↔ Steady em pseudos p := by
  constructor
  · intro sound k j i m m' top way branch label _ clear label'
    have there := (way.branch branch label).clear clear
    exact ⟨_, sound i m' _ label' there, arrives_recorded fresh once label'⟩
  · intro steady i m top label way
    rcases way.low_or_back fresh with low | ⟨k, j, m', before, start, branch, label', back, clear, same⟩
    · exact low.recorded_le fresh label
    · obtain ⟨least, le, arrives⟩ :=
        steady k j i m' m before start branch label' back clear label
      rw [same]
      exact Int.le_trans (arrives.recorded_le fresh once label) le

theorem tes_sound_iff_loop :
    Fresh loop ∧ DefinedOnce loop ∧ (Sound ⟨2, 2⟩ [] loop ↔ Steady ⟨2, 2⟩ [] loop) :=
  ⟨fun _ => rfl, loop_once, tes_sound_iff (fun _ => rfl) loop_once⟩

/-- The second label keeps four bytes, where the way back brings two. -/
theorem tes_unsound : ¬∀ em pseudos p, Fresh p → DefinedOnce p → Sound em pseudos p := by
  intro claim
  have sound := claim ⟨2, 2⟩ [] loop (fun _ => rfl) loop_once
  have recorded : ((do_tes ⟨2, 2⟩ [] loop).num 2).n_size = 4 := by decide +kernel
  have atMost := sound 3 2 2 ⟨2, rfl, rfl⟩ loop_back
  rw [recorded] at atMost
  exact absurd atMost (by decide)

/-- A size that is known, and so a size that is recorded, fits in a `short`. -/
theorem recorded_in_range (fresh : Fresh p) (once : DefinedOnce p) (label : LabelAt p i m)
    (range : ∀ l ∈ text p, InRange l.l_a) (word : em.wordsize < 2 ^ 14)
    (pointer : em.pointersize < 2 ^ 15) :
    0 ≤ ((do_tes em pseudos p).num m).n_size ∧ ((do_tes em pseudos p).num m).n_size < 2 ^ 15 := by
  have stays : ∀ i top, top < 2 ^ 15 → topBehind em p i top < 2 ^ 15 := by
    intro i top fits
    unfold topBehind
    split
    · rename_i instr operand here
      have operandFits : InRange operand := range _ (List.mem_of_getElem? here)
      have before : ∀ l, previous p i = some l → InRange l.l_a := by
        intro l there
        cases i with
        | zero => exact nomatch there
        | succ i => exact range l (List.mem_of_getElem? there)
      have values := @value_in_range em instr operand (previous p i) operandFits before word pointer
      unfold knownTop
      split
      · exact fits
      · rename_i size _
        have value := values size
        simp only [Option.getD_some]
        omega
      · have value := values .a
        simp only [Option.getD_some]
        omega
      · exact zero_in_range.2
    · exact fits
  have onward : ∀ {i top}, Onward em pseudos p i top → top < 2 ^ 15 := by
    intro i top way
    induction way with
    | entry => decide
    | outside => decide
    | orphan => decide
    | next _ _ ih => exact stays _ _ ih
    | branch _ _ _ _ ih => exact stays _ _ ih
  have regular := @passed_regular em pseudos p _ fresh (Nat.le_refl _)
  refine ⟨regular.sizes m _ (recorded fresh label), ?_⟩
  have arrives := @arrives_recorded em pseudos p i m fresh once label
  generalize ((do_tes em pseudos p).num m).n_size = n at arrives
  cases arrives with
  | onward way => exact onward way
  | back way => exact stays _ _ (onward way)

theorem recorded_in_range_loop : (∀ l ∈ text loop, InRange l.l_a) ∧
    0 ≤ ((do_tes ⟨2, 2⟩ [] loop).num 2).n_size ∧ ((do_tes ⟨2, 2⟩ [] loop).num 2).n_size < 2 ^ 15 := by
  have range : ∀ l ∈ text loop, InRange l.l_a := by
    simp [text, loop, loopLine, InRange, List.range, List.range.loop]
  have label : LabelAt loop 3 2 := ⟨2, rfl, rfl⟩
  exact ⟨range, recorded_in_range (fun _ => rfl) loop_once label range (by decide) (by decide)⟩

end AckFormal.Opt.Tes
