import AckFormal.Lib.Chains
import AckFormal.Opt.Lines
import Mathlib.Data.Finset.Card

/-!
# The ends of branch chains

The function `relabel` of `util/opt/process.c`. A first walk along `n_repl` marks labels until
it meets one that is marked or settled; a second one gives all of them the replacement of that
label.
-/

namespace AckFormal.Opt

open Lib.Chains

def Num.mark (n : Num) : Num := { n with n_flags := { n.n_flags with NUMMARK := true } }

def Num.settle (repl : NumP) (n : Num) : Num :=
  { n with n_repl := repl, n_flags := { n.n_flags with NUMMARK := false, NUMKNOWN := true } }

def Num.clear (n : Num) : Num :=
  { n with
    n_flags := { n.n_flags with NUMKNOWN := false, NUMSCAN := false, NUMREACH := false }
    n_jumps := 0 }

def markChain : Nat → Proinf → NumP → Option (Proinf × NumP)
  | 0, _, _ => none
  | fuel + 1, p, tp =>
    if (p.num tp).n_flags.NUMKNOWN || (p.num tp).n_flags.NUMMARK then some (p, tp)
    else markChain fuel (p.setNum tp Num.mark) (p.num tp).n_repl

def settleChain (repl : NumP) : Nat → Proinf → NumP → Option Proinf
  | 0, _, _ => none
  | fuel + 1, p, tp =>
    if (p.num tp).n_flags.NUMMARK then
      let ttp := (p.num tp).n_repl
      settleChain repl fuel (p.setNum tp (Num.settle repl)) ttp
    else some p

/-- The body of the first loop; a failed assertion has no result. -/
def relabelNum (fuel : Nat) (p : Proinf) (np : NumP) : Option Proinf :=
  if p.defines np then
    (markChain fuel p np).bind fun (marked, tp) =>
      settleChain (marked.num tp).n_repl fuel marked np
  else none

namespace Proinf

variable {p : Proinf} {path : List NumP} {change : Num → Num}

def setNums (p : Proinf) (path : List NumP) (change : Num → Num) : Proinf :=
  { p with num := fun np => if np ∈ path then change (p.num np) else p.num np }

variable {np : NumP}

@[simp] theorem setNums_instrs : (p.setNums path change).instrs = p.instrs := rfl

@[simp] theorem setNums_line : (p.setNums path change).line = p.line := rfl

theorem setNums_num_of_mem (member : np ∈ path) :
    (p.setNums path change).num np = change (p.num np) := if_pos member

theorem setNums_num_of_notMem (absent : np ∉ path) :
    (p.setNums path change).num np = p.num np := if_neg absent

@[simp] theorem setNums_nil : p.setNums [] change = p := by
  simp [setNums]

theorem setNums_cons (absent : np ∉ path) :
    (p.setNum np change).setNums path change = p.setNums (np :: path) change := by
  unfold setNums
  congr 1
  funext other
  by_cases same : other = np
  · subst same
    simp [absent]
  · simp [setNum_of_ne p change same, same]

theorem setNums_setNums {before : Num → Num} (undone : ∀ n, change (before n) = change n) :
    (p.setNums path before).setNums path change = p.setNums path change := by
  unfold setNums
  congr 1
  funext np
  by_cases member : np ∈ path
  · simp [member, undone]
  · simp [member]

theorem setNums_keeps {β : Type*} (member : Num → β) (change : Num → Num)
    (kept : ∀ n, member (change n) = member n) (np : NumP)
    : member ((p.setNums path change).num np) = member (p.num np) := by
  unfold setNums
  dsimp only
  split
  · exact kept _
  · rfl

end Proinf

/-! ### The two walks -/

def Proinf.unsettled (p : Proinf) : Finset NumP :=
  p.numhash.toFinset.filter fun np =>
    ((p.num np).n_flags.NUMKNOWN || (p.num np).n_flags.NUMMARK) = false

/-- What the first walk from `np` finds: the labels it marks and the one it stops at. -/
structure Marked (p : Proinf) (np : NumP) (path : List NumP) (last : NumP) : Prop where
  chain : Chain (fun np => (p.num np).n_repl) np path last
  nodup : path.Nodup
  free : ∀ a ∈ path, a ∈ p.unsettled
  stop : last ∈ path ∨ (p.num last).n_flags.NUMKNOWN = true ∨ (p.num last).n_flags.NUMMARK = true

variable {p : Proinf} {np : NumP}

theorem mem_unsettled :
    np ∈ p.unsettled ↔ np ∈ p.numhash ∧ (p.num np).n_flags.NUMKNOWN = false ∧
      (p.num np).n_flags.NUMMARK = false := by
  simp [Proinf.unsettled]

theorem unsettled_mark : (p.setNum np Num.mark).unsettled = p.unsettled.erase np := by
  ext other
  by_cases same : other = np
  · subst same
    simp [mem_unsettled, Num.mark]
  · simp [mem_unsettled, Proinf.setNum_of_ne p Num.mark same, same]

/-- The walk marks the chain up to a label that is settled, cycles included. -/
theorem markChain_marked (closed : ∀ a ∈ p.numhash, (p.num a).n_repl ∈ p.numhash)
    (member : np ∈ p.numhash) :
    ∃ path last, Marked p np path last ∧ ∀ fuel, p.unsettled.card < fuel →
      markChain fuel p np = some (p.setNums path Num.mark, last) := by
  induction size : p.unsettled.card using Nat.strong_induction_on generalizing p np with
  | _ count ih =>
    cases stop : (p.num np).n_flags.NUMKNOWN || (p.num np).n_flags.NUMMARK with
    | true =>
      refine ⟨[], np, ⟨rfl, List.nodup_nil, nofun, .inr (by simpa using stop)⟩, ?_⟩
      intro fuel enough
      obtain ⟨fuel, rfl⟩ := Nat.exists_eq_add_one_of_ne_zero (Nat.ne_zero_of_lt enough)
      rw [markChain, if_pos stop, Proinf.setNums_nil]
    | false =>
      have free : np ∈ p.unsettled := by
        rw [mem_unsettled]
        simpa using And.intro member stop
      have fewer : (p.setNum np Num.mark).unsettled.card + 1 = count := by
        rw [unsettled_mark, Finset.card_erase_add_one free, size]
      have repls : ∀ a, ((p.setNum np Num.mark).num a).n_repl = (p.num a).n_repl := by
        intro a
        by_cases same : a = np
        · subst same
          simp [Num.mark]
        · rw [Proinf.setNum_of_ne p _ same]
      obtain ⟨path, last, marked, walked⟩ :=
        @ih _ (Nat.lt_of_succ_le fewer.le) (p.setNum np Num.mark) (p.num np).n_repl
          (fun a inHash => repls a ▸ closed a inHash) (closed np member) rfl
      have absent : np ∉ path := by
        intro inPath
        have still := marked.free np inPath
        rw [unsettled_mark] at still
        exact absurd rfl (Finset.ne_of_mem_erase still)
      refine ⟨np :: path, last, ⟨⟨rfl, ?_⟩, ?_, ?_, ?_⟩, ?_⟩
      · exact marked.chain.congr fun a _ => (repls a).symm
      · exact List.nodup_cons.mpr ⟨absent, marked.nodup⟩
      · intro a inPath
        cases inPath with
        | head => exact free
        | tail _ inPath =>
          have still := marked.free a inPath
          rw [unsettled_mark] at still
          exact Finset.mem_of_mem_erase still
      · by_cases same : last = np
        · exact .inl (same ▸ List.mem_cons_self)
        · have stop := marked.stop
          rw [Proinf.setNum_of_ne p _ same] at stop
          exact stop.imp_left (List.mem_cons_of_mem np)
      · intro fuel enough
        obtain ⟨fuel, rfl⟩ := Nat.exists_eq_add_one_of_ne_zero (Nat.ne_zero_of_lt enough)
        rw [markChain, if_neg (by simp [stop]), walked fuel (by omega), Proinf.setNums_cons absent]

/-- The second walk settles the labels that the first one has marked. -/
theorem settleChain_eq {fuel : Nat} {repl last : NumP} {path : List NumP}
    (chain : Chain (fun np => (p.num np).n_repl) np path last) (nodup : path.Nodup)
    (marks : ∀ a ∈ path, (p.num a).n_flags.NUMMARK = true)
    (stop : last ∈ path ∨ (p.num last).n_flags.NUMMARK = false) (enough : path.length < fuel) :
    settleChain repl fuel p np = some (p.setNums path (Num.settle repl)) := by
  induction path generalizing fuel p np with
  | nil =>
    obtain ⟨fuel, rfl⟩ := Nat.exists_eq_add_one_of_ne_zero (Nat.ne_of_gt enough)
    have unmarked := chain ▸ stop.resolve_left List.not_mem_nil
    rw [settleChain, unmarked, Proinf.setNums_nil]
    rfl
  | cons a path ih =>
    obtain ⟨fuel, rfl⟩ := Nat.exists_eq_add_one_of_ne_zero (Nat.ne_of_gt (Nat.zero_lt_of_lt enough))
    obtain ⟨rfl, tail⟩ := chain
    obtain ⟨absent, nodup⟩ := List.nodup_cons.mp nodup
    have others : ∀ b ∈ path, (p.setNum a (Num.settle repl)).num b = p.num b :=
      fun b inPath => p.setNum_of_ne _ (ne_of_mem_of_not_mem inPath absent)
    rw [settleChain, if_pos (marks a List.mem_cons_self), ← Proinf.setNums_cons absent]
    refine ih (tail.congr fun b inPath => congrArg Num.n_repl (others b inPath)) nodup ?_ ?_ ?_
    · intro b inPath
      rw [others b inPath]
      exact marks b (List.mem_cons_of_mem a inPath)
    · by_cases same : last = a
      · subst same
        simp [Num.settle]
      · rw [p.setNum_of_ne _ same]
        exact stop.imp_left fun inPath => (List.mem_cons.mp inPath).resolve_left same
    · exact Nat.lt_of_succ_lt_succ enough

/-- One turn of the first loop: the labels of the walk get the replacement of its end. -/
theorem relabelNum_marked (closed : ∀ a ∈ p.numhash, (p.num a).n_repl ∈ p.numhash)
    (unmarked : ∀ a ∈ p.numhash, (p.num a).n_flags.NUMMARK = false) (defined : p.defines np = true)
    (member : np ∈ p.numhash) :
    ∃ path last, Marked p np path last ∧ ∀ fuel, p.numhash.length < fuel →
      relabelNum fuel p np = some (p.setNums path (Num.settle (p.num last).n_repl)) := by
  obtain ⟨path, last, marked, walked⟩ := markChain_marked closed member
  refine ⟨path, last, marked, fun fuel enough => ?_⟩
  have few : p.unsettled.card < fuel :=
    ((Finset.card_filter_le _ _).trans (List.toFinset_card_le _)).trans_lt enough
  have shorter : path.length ≤ p.unsettled.card := by
    rw [← List.toFinset_card_of_nodup marked.nodup]
    exact Finset.card_le_card fun a inPath => marked.free a (List.mem_toFinset.mp inPath)
  have repls : ∀ a, ((p.setNums path Num.mark).num a).n_repl = (p.num a).n_repl :=
    Proinf.setNums_keeps Num.n_repl _ fun _ => rfl
  have inHash : last ∈ p.numhash := marked.chain.leads.member closed member
  have settled : settleChain (p.num last).n_repl fuel (p.setNums path Num.mark) np =
      some ((p.setNums path Num.mark).setNums path (Num.settle (p.num last).n_repl)) := by
    refine settleChain_eq (marked.chain.congr fun a _ => repls a) marked.nodup ?_ ?_
      (Nat.lt_of_le_of_lt shorter few)
    · intro a inPath
      rw [Proinf.setNums_num_of_mem inPath]
      rfl
    · by_cases inPath : last ∈ path
      · exact .inl inPath
      · rw [Proinf.setNums_num_of_notMem inPath]
        exact .inr (unmarked last inHash)
  rw [relabelNum, if_pos defined, walked fuel few, Option.bind_some]
  dsimp only
  rw [repls, settled]
  exact congrArg some (Proinf.setNums_setNums fun n => rfl)

/-! ### The whole loop -/

/-- What holds between two turns of the first loop, `orig` being the procedure before it. -/
structure Relabelling (orig p : Proinf) : Prop where
  numhash : p.numhash = orig.numhash
  line : p.line = orig.line
  n_line : ∀ np, (p.num np).n_line = (orig.num np).n_line
  unmarked : ∀ np ∈ p.numhash, (p.num np).n_flags.NUMMARK = false
  waiting : ∀ np ∈ p.numhash, (p.num np).n_flags.NUMKNOWN = false →
    (p.num np).n_repl = (orig.num np).n_repl
  steady : ∀ np ∈ p.numhash, (p.num np).n_flags.NUMKNOWN = true →
    (p.num (orig.num np).n_repl).n_flags.NUMKNOWN = true ∧
      (p.num (orig.num np).n_repl).n_repl = (p.num np).n_repl
  leads : ∀ np ∈ p.numhash, (p.num np).n_flags.NUMKNOWN = true →
    Leads (fun a => (orig.num a).n_repl) np (p.num np).n_repl

/-- The labels of a procedure before `relabel`: replacements are labels of the procedure, no
label is marked or settled, and lines of labels define them. -/
structure Proinf.Labelled (p : Proinf) : Prop where
  closed : ∀ np ∈ p.numhash, (p.num np).n_repl ∈ p.numhash
  unmarked : ∀ np ∈ p.numhash, (p.num np).n_flags.NUMMARK = false
  unknown : ∀ np ∈ p.numhash, (p.num np).n_flags.NUMKNOWN = false
  defined : ∀ np ∈ p.numhash, p.defines np = true

theorem Relabelling.start (labelled : p.Labelled) : Relabelling p p where
  numhash := rfl
  line := rfl
  n_line _ := rfl
  unmarked := labelled.unmarked
  waiting _ _ _ := rfl
  steady np member known := absurd known (by simp [labelled.unknown np member])
  leads np member known := absurd known (by simp [labelled.unknown np member])

namespace Relabelling

variable {orig p : Proinf}

variable (relabelling : Relabelling orig p)
include relabelling

theorem closed (labelled : orig.Labelled) :
    ∀ np ∈ p.numhash, (p.num np).n_repl ∈ p.numhash := by
  intro np member
  have member' := relabelling.numhash ▸ member
  rw [relabelling.numhash]
  cases known : (p.num np).n_flags.NUMKNOWN with
  | false =>
    rw [relabelling.waiting np member known]
    exact labelled.closed np member'
  | true => exact (relabelling.leads np member known).member labelled.closed member'

theorem defines (np : NumP) :
    p.defines np = orig.defines np := by
  unfold Proinf.defines
  rw [relabelling.n_line, relabelling.line]

/-- The labels of one walk are settled with the replacement of its end. -/
theorem settled (labelled : orig.Labelled) {np last : NumP}
    {path : List NumP} (marked : Marked p np path last) (member : np ∈ p.numhash) :
    Relabelling orig (p.setNums path (Num.settle (p.num last).n_repl)) := by
  have inHash : last ∈ p.numhash :=
    marked.chain.leads.member (relabelling.closed labelled) member
  have free : ∀ a ∈ path, a ∈ p.numhash ∧ (p.num a).n_flags.NUMKNOWN = false :=
    fun a inPath => (mem_unsettled.mp (marked.free a inPath)).imp_right And.left
  have repls : ∀ a ∈ path, (p.num a).n_repl = (orig.num a).n_repl :=
    fun a inPath => relabelling.waiting a (free a inPath).1 (free a inPath).2
  have known_of_stop : last ∉ path → (p.num last).n_flags.NUMKNOWN = true := by
    intro absent
    refine (marked.stop.resolve_left absent).resolve_right ?_
    simp [relabelling.unmarked last inHash]
  have chain := marked.chain.congr fun a inPath => (repls a inPath).symm
  refine ⟨relabelling.numhash, relabelling.line, ?_, ?_, ?_, ?_, ?_⟩
  · intro a
    exact (Proinf.setNums_keeps Num.n_line (Num.settle _) (fun _ => rfl) a).trans
      (relabelling.n_line a)
  · intro a inHash
    by_cases inPath : a ∈ path
    · rw [Proinf.setNums_num_of_mem inPath]
      rfl
    · rw [Proinf.setNums_num_of_notMem inPath]
      exact relabelling.unmarked a inHash
  · intro a inHash unknown
    by_cases inPath : a ∈ path
    · rw [Proinf.setNums_num_of_mem inPath] at unknown
      exact nomatch unknown
    · rw [Proinf.setNums_num_of_notMem inPath] at unknown ⊢
      exact relabelling.waiting a inHash unknown
  · intro a inHash known
    by_cases inPath : a ∈ path
    · rw [Proinf.setNums_num_of_mem inPath]
      by_cases next : (orig.num a).n_repl ∈ path
      · rw [Proinf.setNums_num_of_mem next]
        exact ⟨rfl, rfl⟩
      · have isLast := (chain.mem inPath).2.resolve_left next
        rw [Proinf.setNums_num_of_notMem next, isLast]
        exact ⟨known_of_stop (isLast ▸ next), rfl⟩
    · rw [Proinf.setNums_num_of_notMem inPath] at known ⊢
      obtain ⟨nextKnown, same⟩ := relabelling.steady a inHash known
      have next : (orig.num a).n_repl ∉ path := by
        intro next
        rw [(free _ next).2] at nextKnown
        exact Bool.false_ne_true nextKnown
      rw [Proinf.setNums_num_of_notMem next]
      exact ⟨nextKnown, same⟩
  · intro a inHash known
    by_cases inPath : a ∈ path
    · rw [Proinf.setNums_num_of_mem inPath]
      have leads := (chain.mem inPath).1
      by_cases inside : last ∈ path
      · dsimp only [Num.settle]
        rw [repls last inside]
        exact leads.next
      · exact leads.trans (relabelling.leads last ‹_› (known_of_stop inside))
    · rw [Proinf.setNums_num_of_notMem inPath] at known ⊢
      exact relabelling.leads a inHash known

theorem turn (labelled : orig.Labelled) {np : NumP}
    (member : np ∈ orig.numhash) :
    ∃ p', (∀ fuel, orig.numhash.length < fuel → relabelNum fuel p np = some p') ∧
      Relabelling orig p' ∧ (p'.num np).n_flags.NUMKNOWN = true ∧
      ∀ a, (p.num a).n_flags.NUMKNOWN = true → (p'.num a).n_flags.NUMKNOWN = true := by
  have inHash : np ∈ p.numhash := relabelling.numhash ▸ member
  obtain ⟨path, last, marked, turned⟩ :=
    relabelNum_marked (relabelling.closed labelled) relabelling.unmarked
      ((relabelling.defines np).trans (labelled.defined np member)) inHash
  refine ⟨_, relabelling.numhash ▸ turned, relabelling.settled labelled marked inHash, ?_, ?_⟩
  · cases path with
    | nil =>
      have same : np = last := marked.chain
      subst same
      refine (marked.stop.resolve_left List.not_mem_nil).resolve_right ?_
      simp [relabelling.unmarked np inHash]
    | cons a path =>
      have same : a = np := marked.chain.1
      subst same
      rw [Proinf.setNums_num_of_mem List.mem_cons_self]
      rfl
  · intro a known
    by_cases inPath : a ∈ path
    · rw [Proinf.setNums_num_of_mem inPath]
      rfl
    · rw [Proinf.setNums_num_of_notMem inPath]
      exact known

theorem run (labelled : orig.Labelled) {rest : List NumP}
    (members : ∀ np ∈ rest, np ∈ orig.numhash) :
    ∃ p', (∀ fuel, orig.numhash.length < fuel →
        rest.foldlM (relabelNum fuel) p = some p') ∧
      Relabelling orig p' ∧ (∀ np ∈ rest, (p'.num np).n_flags.NUMKNOWN = true) ∧
      ∀ a, (p.num a).n_flags.NUMKNOWN = true → (p'.num a).n_flags.NUMKNOWN = true := by
  induction rest generalizing p with
  | nil => exact ⟨p, fun _ _ => rfl, relabelling, nofun, fun _ known => known⟩
  | cons np rest ih =>
    obtain ⟨q, turned, between, known, kept⟩ :=
      relabelling.turn labelled (members np List.mem_cons_self)
    obtain ⟨p', finished, after, knowns, kept'⟩ :=
      ih between fun a member => members a (List.mem_cons_of_mem np member)
    refine ⟨p', ?_, after, ?_, fun a was => kept' a (kept a was)⟩
    · intro fuel enough
      rw [List.foldlM_cons, turned fuel enough]
      exact finished fuel enough
    · intro a member
      cases member with
      | head => exact kept' np known
      | tail _ member => exact knowns a member

end Relabelling

end AckFormal.Opt
