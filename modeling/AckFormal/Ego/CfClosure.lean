import AckFormal.Ego.CfRead
import Mathlib.Algebra.Order.BigOperators.Group.Finset

/-!
# The closure over the calls

`add_info` gives a caller what the called procedure has.  Every step of `trans_clos`
keeps that a procedure has only what some procedure it reaches has by itself, and
raises the amount of information, which is bounded by the objects that are changed
anywhere.  So the loop ends, whatever cycles the calls have, and then a procedure
has everything that the procedures it reaches have.
-/

namespace AckFormal.Ego.Cf

open Ego.Lines Lib.Settle

/-! ### The calls -/

theorem bodyKnown_iff (prog : Program) (p : Nat) :
    bodyKnown prog p = true ↔ ∃ u ∈ prog.units, p ∈ u.proc := by
  simp [bodyKnown]

variable {prog : Program} {p q : Nat} {l : Line} {s : Infos}

theorem bodyKnown_of_mem (inBody : l ∈ prog.body p) : bodyKnown prog p = true := by
  obtain ⟨u, member, inUnit⟩ := List.mem_flatMap.mp inBody
  exact (bodyKnown_iff prog p).mpr ⟨u, member, body_proc inUnit⟩

theorem calls_bodyKnown (calls : Calls prog p q) : bodyKnown prog p = true := by
  rcases calls with cal | ⟨⟨l, inBody, -⟩, -⟩
  · exact bodyKnown_of_mem cal
  · exact bodyKnown_of_mem inBody

theorem mem_table_of_bodyKnown (known : bodyKnown prog p = true) : p ∈ prog.table := by
  obtain ⟨u, member, own⟩ := (bodyKnown_iff prog p).mp known
  exact (prog.known u member).1 p own

theorem body_lines {u : TextUnit} (inBody : l ∈ u.body p) : l ∈ u.lines := by
  cases u with
  | data lines => exact absurd inBody List.not_mem_nil
  | text r blocks => exact (List.mem_ite_nil_right.mp inBody).2

theorem mem_table_of_line {u : TextUnit} (member : u ∈ prog.units) (inUnit : l ∈ u.lines)
    (refers : q ∈ lineProcs l) : q ∈ prog.table :=
  (prog.known u member).2 l inUnit q refers

theorem calls_mem_table (calls : Calls prog p q) : q ∈ prog.table := by
  rcases calls with cal | ⟨-, ⟨r, lpi⟩ | ⟨l, read, -, args, operand, among⟩⟩
  · obtain ⟨u, member, inUnit⟩ := List.mem_flatMap.mp cal
    exact mem_table_of_line member (body_lines inUnit) List.mem_cons_self
  · obtain ⟨u, member, inUnit⟩ := List.mem_flatMap.mp lpi
    exact mem_table_of_line member (body_lines inUnit) List.mem_cons_self
  · obtain ⟨u, member, inUnit⟩ := List.mem_flatMap.mp read
    refine mem_table_of_line member inUnit ?_
    rw [lineProcs, operand]
    exact List.mem_filterMap.mpr ⟨_, among, rfl⟩

theorem mem_edges (prog : Program) (q p : Nat) :
    (q, p) ∈ edges prog (indirCalls prog.collected).calling ↔ Calls prog p q := by
  simp only [edges, List.mem_flatMap, List.mem_ite_nil_right, List.mem_map, List.mem_filter,
    decide_eq_true_eq, Prod.mk.injEq, indirCalls_calling, List.mem_range'_1]
  constructor
  · rintro ⟨p, -, -, q, ⟨-, calls⟩, rfl, rfl⟩
    exact calls
  · intro calls
    have bounds := (prog.ids q).mp (calls_mem_table calls)
    exact ⟨p, mem_table_of_bodyKnown (calls_bodyKnown calls), calls_bodyKnown calls, q,
      ⟨by omega, calls⟩, rfl, rfl⟩

/-! ### One fact -/

theorem has_learn (i : Info) (f g : Fact) :
    (i.learn f).has g = true ↔ i.has g = true ∨ g = f := by
  cases f <;> cases g <;> simp only [Info.has, decide_eq_true_eq] <;> simp [Info.learn, or_comm]

def weight (i : Info) : Nat :=
  i.cExt.card + i.calUnknown.toNat + i.environ.toNat + i.calInLoop.toNat + i.cIndir.toNat +
    i.uIndir.toNat

theorem weight_learn (i : Info) (f : Fact) (new : i.has f = false) :
    weight i < weight (i.learn f) := by
  cases f with
  | changes o =>
    have fresh : o ∉ i.cExt := by simpa [Info.has] using new
    simp only [weight, Info.learn, Finset.card_insert_of_notMem fresh]
    omega
  | _ =>
    simp only [Info.has] at new
    simp only [weight, Info.learn, new, Bool.toNat_true, Bool.toNat_false]
    omega

def rank (prog : Program) (s : Infos) : Nat := ∑ p ∈ prog.table.toFinset, weight (s p)

/-- More information about one procedure is more information. -/
theorem rank_update {i : Info} (member : p ∈ prog.table) (more : weight (s p) < weight i) :
    rank prog s < rank prog (Function.update s p i) := by
  refine Finset.sum_lt_sum (fun r _ => ?_) ⟨p, List.mem_toFinset.mpr member, ?_⟩
  · by_cases own : r = p
    · rw [own, Function.update_self]
      exact Nat.le_of_lt more
    · rw [Function.update_of_ne own]
  · rw [Function.update_self]
    exact more

/-! ### What a step keeps -/

/-- `q` has the fact by itself: it was found in its body, or there is no body. -/
def Source (prog : Program) (base : Infos) (q : Nat) (f : Fact) : Prop :=
  (base q).has f = true ∨ f = .unknown ∧ bodyKnown prog q = false

/-- Nothing of `base` is lost, and nothing is there without a reason. -/
structure Within (prog : Program) (base s : Infos) : Prop where
  kept : ∀ p f, (base p).has f = true → (s p).has f = true
  justified : ∀ p f, (s p).has f = true → ∃ q, Reaches prog p q ∧ Source prog base q f

/-- `p` may be given what a procedure it reaches is the source of. -/
theorem Within.update {base : Infos} (within : Within prog base s) {i : Info}
    (more : ∀ f, (s p).has f = true → i.has f = true)
    (reason : ∀ f, i.has f = true → ∃ q, Reaches prog p q ∧ Source prog base q f) :
    Within prog base (Function.update s p i) where
  kept r f had := by
    by_cases own : r = p
    · rw [own, Function.update_self]
      rw [own] at had
      exact more f (within.kept p f had)
    · rw [Function.update_of_ne own]
      exact within.kept r f had
  justified r f has := by
    by_cases own : r = p
    · rw [own, Function.update_self] at has
      rw [own]
      exact reason f has
    · rw [Function.update_of_ne own] at has
      exact within.justified r f has

theorem Within.caller {base : Infos} (within : Within prog base s) (calls : Calls prog p q)
    {f : Fact} (has : (s q).has f = true) : ∃ r, Reaches prog p r ∧ Source prog base r f := by
  obtain ⟨r, reaches, source⟩ := within.justified q f has
  exact ⟨r, .head calls reaches, source⟩

section Step

variable {prog : Program} {base : Infos} {p q : Nat}

section

variable (calls : Calls prog p q)
include calls

theorem passFlag_progress (flag : Fact) :
    Progress (Within prog base) (rank prog) (passFlag flag q p) := by
  refine Progress.conditional (fun s within now => ?_) (fun s _ now => ?_)
  all_goals obtain ⟨has, new⟩ := (Bool.and_eq_true _ _).mp now
  · refine within.update (fun f had => (has_learn _ _ _).mpr (.inl had)) fun f learned => ?_
    rcases (has_learn _ _ _).mp learned with had | rfl
    · exact within.justified p f had
    · exact within.caller calls has
  · exact rank_update (mem_table_of_bodyKnown (calls_bodyKnown calls))
      (weight_learn _ _ (Bool.not_eq_true' _ ▸ new))

theorem passLoop_progress :
    Progress (Within prog base) (rank prog) (passLoop q p) := by
  have same : ∀ (i : Info) f, { i with calInLoop := true }.has f = i.has f := by
    intro i f
    cases f <;> rfl
  refine Progress.conditional (fun s within _ => ?_) (fun s _ now => ?_)
  · exact within.update (fun f had => (same _ f).trans had)
      fun f has => within.justified q f ((same _ f).symm.trans has)
  · have new : (s q).calInLoop = false := by simpa using ((Bool.and_eq_true _ _).mp now).2
    refine rank_update (calls_mem_table calls) ?_
    simp only [weight, new, Bool.toNat_true, Bool.toNat_false]
    omega

theorem passExt_progress :
    Progress (Within prog base) (rank prog) (passExt q p) := by
  refine Progress.conditional (fun s within _ => ?_) (fun s _ now => ?_)
  · refine within.update (fun f had => ?_) fun f has => ?_
    · cases f with
      | changes o => simpa [Info.has] using Or.inr (by simpa [Info.has] using had)
      | _ => exact had
    · cases f with
      | changes o =>
        have either : o ∈ (s q).cExt ∪ (s p).cExt := by simpa [Info.has] using has
        rcases Finset.mem_union.mp either with theirs | own
        · exact within.caller calls (by simpa [Info.has] using theirs)
        · exact within.justified p _ (by simpa [Info.has] using own)
      | _ => exact within.justified p _ has
  · refine rank_update (mem_table_of_bodyKnown (calls_bodyKnown calls)) ?_
    have larger : (s p).cExt.card < ((s q).cExt ∪ (s p).cExt).card :=
      Finset.card_lt_card ⟨Finset.subset_union_right,
        fun most => now (Finset.subset_union_left.trans most)⟩
    simp only [weight]
    omega

theorem passes_progress :
    ∀ step ∈ passes q p, Progress (Within prog base) (rank prog) step := by
  intro step member
  simp only [passes, List.mem_cons, List.not_mem_nil, or_false] at member
  rcases member with rfl | rfl | rfl | rfl | rfl | rfl
  · exact passFlag_progress calls _
  · exact passLoop_progress calls
  · exact passExt_progress calls
  all_goals exact passFlag_progress calls _

end

theorem passes_honest : ∀ step ∈ passes q p, Honest step := by
  intro step member
  simp only [passes, List.mem_cons, List.not_mem_nil, or_false] at member
  rcases member with rfl | rfl | rfl | rfl | rfl | rfl
  all_goals exact .conditional

theorem addInfo_honest (prog : Program) (q p : Nat) : Honest (addInfo prog q p) := by
  unfold addInfo
  cases bodyKnown prog q with
  | true => exact Honest.sweep passes_honest
  | false => exact .conditional

theorem addInfo_progress (calls : Calls prog p q) :
    Progress (Within prog base) (rank prog) (addInfo prog q p) := by
  unfold addInfo
  cases known : bodyKnown prog q with
  | true => exact Progress.sweep (passes_progress calls)
  | false =>
    refine Progress.conditional (fun s within new => ?_) (fun s _ new => ?_)
    · refine within.update (fun f had => (has_learn _ .unknown _).mpr (.inl had))
        fun f learned => ?_
      rcases (has_learn _ .unknown _).mp learned with had | rfl
      · exact within.justified p f had
      · exact ⟨q, .single calls, .inr ⟨rfl, known⟩⟩
    · exact rank_update (mem_table_of_bodyKnown (calls_bodyKnown calls))
        (weight_learn _ .unknown (by simpa [Info.has] using new))

variable {s : Infos}

theorem passFlag_quiet {flag : Fact} (quiet : (passFlag flag q p s).2 = false)
    (has : (s q).has flag = true) : (s p).has flag = true := by
  by_contra lacks
  rw [passFlag, if_pos (by simp [has, lacks])] at quiet
  exact nomatch quiet

theorem passExt_quiet (quiet : (passExt q p s).2 = false) : (s q).cExt ⊆ (s p).cExt := by
  by_contra lacks
  rw [passExt, if_pos lacks] at quiet
  exact nomatch quiet

/-- Where a procedure with a body is called and nothing changes, the caller has all it has. -/
theorem addInfo_quiet (known : bodyKnown prog q = true) (quiet : (addInfo prog q p s).2 = false)
    {f : Fact} (has : (s q).has f = true) : (s p).has f = true := by
  rw [addInfo, if_pos known] at quiet
  have still := (sweep_quiet passes_honest s quiet).2
  cases f with
  | changes o =>
    have subset := passExt_quiet (still (passExt q p) (by simp [passes]))
    have theirs : o ∈ (s q).cExt := by simpa [Info.has] using has
    simpa [Info.has] using subset theirs
  | _ => exact passFlag_quiet (still (passFlag _ q p) (by simp [passes])) has

theorem addInfo_quiet_unknown (unseen : bodyKnown prog q = false)
    (quiet : (addInfo prog q p s).2 = false) : (s p).calUnknown = true := by
  by_contra lacks
  rw [addInfo, if_neg (Bool.not_eq_true _ ▸ unseen), if_pos lacks] at quiet
  exact nomatch quiet

end Step

/-! ### The end of the loop -/

def Own (prog : Program) (p : Nat) : Fact → Prop
  | .unknown => bodyKnown prog p = false
  | .changes o => ∃ l ∈ prog.body p, ChangesExternal o l
  | .changeIndir => ∃ l ∈ prog.body p, storesIndirect l.instr = true
  | .useIndir => ∃ l ∈ prog.body p, loadsIndirect l.instr = true
  | .environ => ∃ l ∈ prog.body p, UsesEnvironment l

theorem source_collected (prog : Program) (p : Nat) (f : Fact) :
    Source prog prog.collected.info p f ↔ Own prog p f := by
  cases f with
  | unknown => simp [Source, Own, Info.has, collected_calUnknown]
  | changes o => simp [Source, Own, Info.has, collected_cExt]
  | changeIndir => simp [Source, Own, Info.has, collected_cIndir]
  | useIndir => simp [Source, Own, Info.has, collected_uIndir]
  | environ => simp [Source, Own, Info.has, collected_environ]

theorem collected_has_bodyKnown {f : Fact} (has : (prog.collected.info p).has f = true) :
    bodyKnown prog p = true := by
  have own := (source_collected prog p f).mp (.inl has)
  cases f with
  | unknown =>
    rw [Info.has, collected_calUnknown] at has
    exact nomatch has
  | _ =>
    obtain ⟨l, inBody, -⟩ := own
    exact bodyKnown_of_mem inBody

def changedObjects (prog : Program) : Finset Nat :=
  prog.table.toFinset.biUnion fun p => (prog.collected.info p).cExt

theorem weight_bounded (within : Within prog prog.collected.info s) (p : Nat) :
    weight (s p) ≤ (changedObjects prog).card + 5 := by
  have subset : (s p).cExt ⊆ changedObjects prog := by
    intro o member
    obtain ⟨q, -, source⟩ := within.justified p (.changes o) (by simpa [Info.has] using member)
    obtain ⟨l, inBody, changes⟩ := (source_collected prog q (.changes o)).mp source
    refine Finset.mem_biUnion.mpr ⟨q, ?_, (collected_cExt prog q o).mpr ⟨l, inBody, changes⟩⟩
    exact List.mem_toFinset.mpr (mem_table_of_bodyKnown (bodyKnown_of_mem inBody))
  have flag : ∀ b : Bool, b.toNat ≤ 1 := Bool.toNat_le
  have objects := Finset.card_le_card subset
  have unknown := flag (s p).calUnknown
  have environ := flag (s p).environ
  have calInLoop := flag (s p).calInLoop
  have cIndir := flag (s p).cIndir
  have uIndir := flag (s p).uIndir
  unfold weight
  omega

/-- The closure ends, and then a procedure with a body has exactly what the procedures it
reaches have by themselves. -/
theorem cf_exact (prog : Program) :
    ∃ final : Infos, (∃ enough, ∀ fuel ≥ enough, cf fuel prog = some final) ∧
      ∀ p, bodyKnown prog p = true → ∀ f,
        ((final p).has f = true ↔ ∃ q, Reaches prog p q ∧ Own prog q f) := by
  have progress : ∀ step ∈ (edges prog (indirCalls prog.collected).calling).map
      (fun e => addInfo prog e.1 e.2),
      Progress (Within prog prog.collected.info) (rank prog) step := by
    intro step member
    obtain ⟨⟨q, p⟩, edge, rfl⟩ := List.mem_map.mp member
    exact addInfo_progress ((mem_edges prog q p).mp edge)
  have honest : ∀ step ∈ (edges prog (indirCalls prog.collected).calling).map
      (fun e => addInfo prog e.1 e.2), Honest step := by
    intro step member
    obtain ⟨⟨q, p⟩, -, rfl⟩ := List.mem_map.mp member
    exact addInfo_honest prog q p
  have start : Within prog prog.collected.info prog.collected.info :=
    ⟨fun _ _ had => had, fun p f has => ⟨p, .refl, .inl has⟩⟩
  have bounded : ∀ s, Within prog prog.collected.info s →
      rank prog s ≤ prog.table.toFinset.card • ((changedObjects prog).card + 5) :=
    fun s within => Finset.sum_le_card_nsmul _ _ _ fun p _ => weight_bounded within p
  obtain ⟨final, enough, ends⟩ := settle_ends progress bounded prog.collected.info start
  have ended := ends enough (Nat.le_refl enough)
  have within := settle_keeps (fun step member => (progress step member).keeps) start ended
  have fixed := settle_fixed honest ended
  refine ⟨final, ⟨enough, ends⟩, fun p known f => ⟨fun has => ?_, ?_⟩⟩
  · obtain ⟨q, reaches, source⟩ := within.justified p f has
    exact ⟨q, reaches, (source_collected prog q f).mp source⟩
  · rintro ⟨q, reaches, own⟩
    have source := (source_collected prog q f).mpr own
    induction reaches using Relation.ReflTransGen.head_induction_on with
    | refl =>
      rcases source with had | ⟨-, unseen⟩
      · exact within.kept _ f had
      · exact nomatch known.symm.trans unseen
    | @head p r calls rest ih =>
      have quiet := fixed _ (List.mem_map.mpr ⟨(r, p), (mem_edges prog r p).mpr calls, rfl⟩)
      cases seen : bodyKnown prog r with
      | true => exact addInfo_quiet seen quiet (ih seen)
      | false =>
        -- nothing is called by a procedure without a body
        have last : r = q := by
          rcases Relation.ReflTransGen.cases_head rest with same | ⟨r', calls', -⟩
          · exact same
          · exact nomatch seen.symm.trans (calls_bodyKnown calls')
        have none : f = .unknown := by
          rcases source with had | ⟨unknown, -⟩
          · rw [← last] at had
            exact nomatch seen.symm.trans (collected_has_bodyKnown had)
          · exact unknown
        rw [none]
        exact addInfo_quiet_unknown seen quiet

/-! ### What the later phases rely on -/

theorem doesImplDef_cases {i : Instr} (judged : doesImplDef i = true) (call : isCall i = false) :
    storesIndirect i = true ∨ i = .opSdf ∨ i = .opZrf := by
  revert judged call
  cases i <;> decide

theorem isIndirUse_cases {i : Instr} (judged : isIndirUse i = true) (call : isCall i = false) :
    loadsIndirect i = true ∨ i = .opLdf ∨ i = .opMon := by
  revert judged call
  cases i <;> decide

/-- A procedure can run an instruction of a kind, by itself or through the procedures it calls. -/
def CanRun (prog : Program) (p : Nat) (kind : Instr → Prop) : Prop :=
  ∃ q, Reaches prog p q ∧ ∃ l ∈ prog.body q, kind l.instr

/-- What a procedure does, itself or through the procedures it calls, is in its change and
use information.  The later phases judge what goes through a pointer; a call is what the
called procedure does. -/
structure Conservative (prog : Program) (final : Infos) (p : Nat) : Prop where
  stores : CanRun prog p (fun i => doesImplDef i = true ∧ isCall i = false) →
    (final p).cIndir = true
  loads : CanRun prog p (fun i => isIndirUse i = true ∧ isCall i = false) → (final p).uIndir = true
  changes : ∀ q, Reaches prog p q → ∀ l ∈ prog.body q, ∀ o, ChangesExternal o l →
    o ∈ (final p).cExt
  unknown : (final p).calUnknown = true ↔ ∃ q, Reaches prog p q ∧ bodyKnown prog q = false

/-- The instructions that the later phases count and this phase does not are harmless in a
procedure that can run a counted one as well. -/
structure Covered (prog : Program) (p : Nat) : Prop where
  stores : CanRun prog p (fun i => i = .opSdf ∨ i = .opZrf) →
    CanRun prog p (fun i => storesIndirect i = true)
  loads : CanRun prog p (fun i => i = .opLdf ∨ i = .opMon) →
    CanRun prog p (fun i => loadsIndirect i = true)

theorem CanRun.mono {kind kind' : Instr → Prop} (runs : CanRun prog p kind)
    (implies : ∀ i, kind i → kind' i) : CanRun prog p kind' := by
  obtain ⟨q, reaches, l, inBody, is⟩ := runs
  exact ⟨q, reaches, l, inBody, implies _ is⟩

theorem CanRun.cases {kind first second : Instr → Prop} (runs : CanRun prog p kind)
    (split : ∀ i, kind i → first i ∨ second i) :
    CanRun prog p first ∨ CanRun prog p second := by
  obtain ⟨q, reaches, l, inBody, is⟩ := runs
  exact (split _ is).imp (fun is => ⟨q, reaches, l, inBody, is⟩)
    fun is => ⟨q, reaches, l, inBody, is⟩

/-- The information of every procedure is conservative if and only if each that can run an
`sdf` or `zrf` can run a store that is counted, and each that can run an `ldf` or `mon` a load
that is counted. -/
theorem cf_conservative_iff (prog : Program) :
    ∃ final : Infos, (∃ enough, ∀ fuel ≥ enough, cf fuel prog = some final) ∧
      ((∀ p, bodyKnown prog p = true → Conservative prog final p) ↔
        ∀ p, bodyKnown prog p = true → Covered prog p) := by
  obtain ⟨final, ends, exact'⟩ := cf_exact prog
  refine ⟨final, ends, fun conservative p known => ⟨fun runs => ?_, fun runs => ?_⟩,
    fun covered p known => ⟨fun runs => ?_, fun runs => ?_, ?_, exact' p known .unknown⟩⟩
  · refine (exact' p known .changeIndir).mp ((conservative p known).stores (runs.mono ?_))
    rintro i (rfl | rfl) <;> decide
  · refine (exact' p known .useIndir).mp ((conservative p known).loads (runs.mono ?_))
    rintro i (rfl | rfl) <;> decide
  · refine (exact' p known .changeIndir).mpr ?_
    rcases runs.cases fun i judged => doesImplDef_cases judged.1 judged.2 with counted | missed
    · exact counted
    · exact (covered p known).stores missed
  · refine (exact' p known .useIndir).mpr ?_
    rcases runs.cases fun i judged => isIndirUse_cases judged.1 judged.2 with counted | missed
    · exact counted
    · exact (covered p known).loads missed
  · intro q reaches l inBody o changes
    have has := (exact' p known (.changes o)).mpr ⟨q, reaches, l, inBody, changes⟩
    simpa [Info.has] using has

/-- One procedure, which copies a double through two pointers. -/
def copyDouble : Program where
  table := [1]
  units := [.text 1 [⟨0, [⟨.opLol, .opShort 0⟩, ⟨.opLdf, .opShort 0⟩, ⟨.opLol, .opShort 4⟩,
    ⟨.opSdf, .opShort 0⟩, ⟨.opRet, .opShort 0⟩]⟩]]
  ids p := by
    rw [List.mem_singleton, List.length_singleton]
    omega
  known := by decide
  once := by decide

/-- Neither `sdf` nor `ldf` is counted. -/
theorem cf_misses_double :
    (cf 1 copyDouble).map (fun final => ((final 1).cIndir, (final 1).uIndir)) =
        some (false, false) ∧
      bodyKnown copyDouble 1 = true ∧
      (∃ l ∈ copyDouble.body 1, doesImplDef l.instr = true ∧ isCall l.instr = false) ∧
      ∃ l ∈ copyDouble.body 1, isIndirUse l.instr = true ∧ isCall l.instr = false := by
  decide +kernel

end AckFormal.Ego.Cf
