import AckFormal.Led.Placement
import AckFormal.Lib.Footprint

/-!
# The second pass

Every relocation is an edit of the bytes of one field.  What it adds does not depend
on the bytes, and what it writes depends on the bytes of its own field only.
-/

namespace AckFormal.Led

/-! ## One relocation -/

section One

variable {plan : Plan} {relorig : Nat → Int} {names : List Name} {emit emit' : Core}
  {relo relo' : Relo}

theorem addrelo_add (plan : Plan) (relorig : Nat → Int) (name : Name) (valu : Int) :
    addrelo plan relorig name valu =
      (addrelo plan relorig name 0).map (fun result => (result.1, valu + result.2)) := by
  unfold addrelo
  split
  · simp only [Option.map_some, zero_add, Int.add_assoc]
  · cases plan.globals.searchname name.str with
    | none => rfl
    | some i =>
      simp only
      cases plan.globals.names[i]? with
      | none => rfl
      | some entry =>
        simp only
        split
        · simp
        · simp

theorem refer_add (plan : Plan) (relorig : Nat → Int) (names : List Name) (relo : Relo)
    (valu : Int) :
    refer plan relorig names relo valu =
      (refer plan relorig names relo 0).map (fun result => (result.1, valu + result.2)) := by
  unfold refer
  cases names[relo.nami.toNat]? with
  | none => simp
  | some name => exact addrelo_add plan relorig name valu

/-- The address of the section that a pc-relative relocation is in. -/
def pcOrigin (plan : Plan) (relorig : Nat → Int) (relo : Relo) : Int :=
  let sectindex := relo.sect.toNat - sMin
  if relpc relo.type then relorig sectindex + ((plan.outsect sectindex).base.toNat : Int) else 0

/-- `relocate`: read the field, add, and write it back. -/
theorem relocate_some {off : Nat}
    (done : relocate plan relorig names emit relo off = some (relo', emit')) :
    ∃ old nami target field,
      getvalu (window emit (relo.addr.toNat - off)) relo.type = some old ∧
      refer plan relorig names relo 0 = some (nami, target) ∧
      putvalu (BitVec.ofInt 32 ((old.toNat : Int) + target - pcOrigin plan relorig relo))
        (window emit (relo.addr.toNat - off)) relo.type = some field ∧
      relo' = { relo with
        nami := nami
        addr := relo.addr + BitVec.ofInt 32 (relorig (relo.sect.toNat - sMin)) } ∧
      emit' = graft emit (relo.addr.toNat - off) field := by
  obtain ⟨old, read, rest⟩ := Option.bind_eq_some_iff.mp done
  obtain ⟨⟨nami, valu⟩, referred, rest⟩ := Option.bind_eq_some_iff.mp rest
  obtain ⟨field, written, same⟩ := Option.bind_eq_some_iff.mp rest
  cases same
  rw [refer_add] at referred
  obtain ⟨⟨index, target⟩, found, equal⟩ := Option.map_eq_some_iff.mp referred
  cases equal
  refine ⟨old, index, target, field, read, found, ?_, rfl, rfl⟩
  rw [← written]
  simp only [pcOrigin]
  split
  · rfl
  · rw [sub_zero]

end One

theorem window_window (emit : Core) (m n : Nat) : window (window emit m) n = window emit (m + n) := by
  funext i
  simp only [window, Nat.add_assoc]

theorem graft_graft (emit field : Core) (m n : Nat) :
    graft emit m (graft (window emit m) n field) = graft emit (m + n) field := by
  funext i
  simp only [graft, window]
  by_cases head : i < m
  · rw [if_pos head, if_pos (by omega)]
  · rw [if_neg head]
    by_cases middle : i - m < n
    · rw [if_pos middle, if_pos (by omega)]
      congr 1
      omega
    · rw [if_neg middle, if_neg (by omega)]
      congr 1
      omega

/-! ## All relocations of all modules -/

/-- A relocation of a module in core, with the origins of the sections of the module. -/
structure Job where
  saved : Saved
  origin : Nat → Int
  relo : Relo

namespace Job

def sectindex (job : Job) : Nat := job.relo.sect.toNat - sMin

def position (job : Job) : Nat := job.saved.emitindex job.sectindex + job.relo.addr.toNat

/-- What `handle_relos` does for the relocation: the changed relocation and bytes. -/
def run (plan : Plan) (job : Job) (emits : Nat → Core) : Option (Relo × (Nat → Core)) := do
  let index := job.saved.emitindex job.sectindex
  let (relo, emit) ← relocate plan job.origin job.saved.modul.names
    (window (emits job.sectindex) index) job.relo 0
  some (relo, Function.update emits job.sectindex (graft (emits job.sectindex) index emit))

/-- The bytes of the field, if `emits` are the bytes before the second pass. -/
def foot (emits : Nat → Core) (job : Job) : Set (Nat × Nat) :=
  { x | x.1 = job.sectindex ∧ job.position ≤ x.2 ∧
    x.2 < job.position + extent (window (emits job.sectindex) job.position) job.relo.type }

variable {plan : Plan} {job : Job} {emits after : Nat → Core} {relo : Relo}

theorem run_some (ran : job.run plan emits = some (relo, after)) :
    ∃ old nami target field,
      getvalu (window (emits job.sectindex) job.position) job.relo.type = some old ∧
      refer plan job.origin job.saved.modul.names job.relo 0 = some (nami, target) ∧
      putvalu (BitVec.ofInt 32 ((old.toNat : Int) + target - pcOrigin plan job.origin job.relo))
        (window (emits job.sectindex) job.position) job.relo.type = some field ∧
      relo = { job.relo with
        nami := nami
        addr := job.relo.addr + BitVec.ofInt 32 (job.origin job.sectindex) } ∧
      after = Function.update emits job.sectindex
        (graft (emits job.sectindex) job.position field) := by
  obtain ⟨⟨changed, emit⟩, relocated, same⟩ := Option.bind_eq_some_iff.mp ran
  cases same
  obtain ⟨old, nami, target, field, read, found, written, rfl, rfl⟩ := relocate_some relocated
  rw [Nat.sub_zero, window_window] at read written
  refine ⟨old, nami, target, field, read, found, written, rfl, ?_⟩
  rw [Nat.sub_zero, graft_graft]
  rfl

theorem run_of {old : BitVec 32} {nami : BitVec 16} {target : Int} {field : Core}
    (read : getvalu (window (emits job.sectindex) job.position) job.relo.type = some old)
    (found : refer plan job.origin job.saved.modul.names job.relo 0 = some (nami, target))
    (written : putvalu
      (BitVec.ofInt 32 ((old.toNat : Int) + target - pcOrigin plan job.origin job.relo))
      (window (emits job.sectindex) job.position) job.relo.type = some field) :
    job.run plan emits = some
      ({ job.relo with
          nami := nami
          addr := job.relo.addr + BitVec.ofInt 32 (job.origin job.sectindex) },
        Function.update emits job.sectindex
          (graft (emits job.sectindex) job.position field)) := by
  have referred := refer_add plan job.origin job.saved.modul.names job.relo (old.toNat : Int)
  rw [found, Option.map_some] at referred
  have value : (if relpc job.relo.type = true then
      (old.toNat : Int) + target - (job.origin (job.relo.sect.toNat - sMin) +
        ((plan.outsect (job.relo.sect.toNat - sMin)).base.toNat : Int))
      else (old.toNat : Int) + target) =
      (old.toNat : Int) + target - pcOrigin plan job.origin job.relo := by
    simp only [pcOrigin]
    split
    · rfl
    · rw [sub_zero]
  simp only [run, relocate, window_window, Nat.sub_zero]
  simp only [position] at read written
  rw [read]
  simp only [Option.bind_eq_bind, Option.bind_some, referred, value, written]
  rw [graft_graft]
  rfl

/-- The bytes that `run` leaves, location by location. -/
def view (emits : Nat → Core) (x : Nat × Nat) : Byte := emits x.1 x.2

/-- A relocation reads and writes nothing but its own field. -/
theorem confined (plan : Plan) (emits : Nat → Core) (job : Job) :
    Lib.Confined view (fun store => (job.run plan store).map Prod.snd) (job.foot emits) emits := by
  have agrees : ∀ store : Nat → Core, Set.EqOn (view store) (view emits) (job.foot emits) →
      Agree (extent (window (emits job.sectindex) job.position) job.relo.type)
        (window (emits job.sectindex) job.position)
        (window (store job.sectindex) job.position) := by
    intro store same i bound
    exact (same (x := (job.sectindex, job.position + i))
      ⟨rfl, Nat.le_add_right _ _, Nat.add_lt_add_left bound _⟩).symm
  constructor
  · intro store after same ran x outside
    obtain ⟨⟨relo, left⟩, ranJob, rfl⟩ := Option.map_eq_some_iff.mp ran
    obtain ⟨old, nami, target, field, _, _, written, _, rfl⟩ := run_some ranJob
    simp only [view]
    by_cases there : x.1 = job.sectindex
    · rw [there, Function.update_self, graft]
      split
      · rfl
      · rename_i past
        have extents := extent_eq (agrees store same)
        have beyond : extent (window (store job.sectindex) job.position) job.relo.type ≤
            x.2 - job.position := by
          by_contra inside
          apply outside
          exact ⟨there, by omega, by omega⟩
        rw [putvalu_frame written beyond, window]
        congr 1
        omega
    · rw [Function.update_of_ne there]
  · intro store after same ran
    obtain ⟨⟨relo, left⟩, ranJob, rfl⟩ := Option.map_eq_some_iff.mp ran
    obtain ⟨old, nami, target, field, read, found, written, _, rfl⟩ := run_some ranJob
    have agree := agrees store same
    have extents := extent_eq agree
    have back : Agree (extent (window (store job.sectindex) job.position) job.relo.type)
        (window (store job.sectindex) job.position)
        (window (emits job.sectindex) job.position) := by
      rw [extents]
      exact agree.symm
    obtain ⟨field', written', sameField⟩ := putvalu_agree back written
    rw [getvalu_eq agree] at read
    refine ⟨_, by rw [run_of read found written']; rfl, ?_⟩
    rintro ⟨s, i⟩ ⟨rfl, low, high⟩
    simp only [view, Function.update_self, graft]
    rw [if_neg (by omega), if_neg (by omega)]
    exact sameField _ (by omega)

def changed (plan : Plan) (job : Job) : Option Relo :=
  (refer plan job.origin job.saved.modul.names job.relo 0).map fun result =>
    { job.relo with
      nami := result.1
      addr := job.relo.addr + BitVec.ofInt 32 (job.origin job.sectindex) }

theorem run_changed (ran : job.run plan emits = some (relo, after)) :
    job.changed plan = some relo := by
  obtain ⟨old, nami, target, field, _, found, _, rfl, _⟩ := run_some ran
  rw [changed, found]
  rfl

/-- The relocation as a step that keeps the relocations made so far. -/
def step (plan : Plan) (state : (Nat → Core) × List Relo) (job : Job) :
    Option ((Nat → Core) × List Relo) :=
  (job.run plan state.1).map fun result => (result.2, state.2 ++ [result.1])

end Job

/-- The relocations of the modules in core, in the order of the second pass. -/
def jobs : (Nat → Int) → List Saved → List Job
  | _, [] => []
  | origin, saved :: rest =>
    saved.modul.relos.map (Job.mk saved origin) ++ jobs (computeOrigins origin saved.modul) rest

def originsAfter (origin : Nat → Int) (saved : List Saved) : Nat → Int :=
  saved.foldl (fun origin saved => computeOrigins origin saved.modul) origin

section Flatten

variable {plan : Plan}

theorem handleRelo_eq (plan : Plan) (saved : Saved) (pass : Pass2) (relo : Relo) :
    handleRelo plan saved pass relo =
      (Job.step plan (pass.emits, pass.relos) ⟨saved, pass.relorig, relo⟩).map fun state =>
        ⟨pass.relorig, state.1, state.2⟩ := by
  simp only [handleRelo, Job.step, Job.run, Job.sectindex]
  cases relocate plan pass.relorig saved.modul.names
      (window (pass.emits (relo.sect.toNat - sMin)) (saved.emitindex (relo.sect.toNat - sMin)))
      relo 0 with
  | none => rfl
  | some result => rfl

theorem handleRelos_eq (plan : Plan) (saved : Saved) (pass : Pass2) (relos : List Relo) :
    relos.foldlM (handleRelo plan saved) pass =
      ((relos.map (Job.mk saved pass.relorig)).foldlM (Job.step plan)
        (pass.emits, pass.relos)).map fun state => ⟨pass.relorig, state.1, state.2⟩ := by
  induction relos generalizing pass with
  | nil => rfl
  | cons relo rest ih =>
    rw [List.foldlM_cons, List.map_cons, List.foldlM_cons, handleRelo_eq]
    cases Job.step plan (pass.emits, pass.relos) ⟨saved, pass.relorig, relo⟩ with
    | none => rfl
    | some state => exact ih ⟨pass.relorig, state.1, state.2⟩

/-- The second pass is the relocations one after the other. -/
theorem finish_eq (plan : Plan) (saved : List Saved) (pass : Pass2) :
    saved.foldlM (finish plan) pass =
      ((jobs pass.relorig saved).foldlM (Job.step plan) (pass.emits, pass.relos)).map fun state =>
        ⟨originsAfter pass.relorig saved, state.1, state.2⟩ := by
  induction saved generalizing pass with
  | nil => rfl
  | cons first rest ih =>
    rw [List.foldlM_cons, finish, handleRelos_eq, jobs, List.foldlM_append]
    cases (first.modul.relos.map (Job.mk first pass.relorig)).foldlM (Job.step plan)
        (pass.emits, pass.relos) with
    | none => rfl
    | some state => exact ih ⟨computeOrigins pass.relorig first.modul, state.1, state.2⟩

theorem foldlM_step {list : List Job} {emits after : Nat → Core} {relos left : List Relo}
    (ran : list.foldlM (Job.step plan) (emits, relos) = some (after, left)) :
    list.foldlM (fun emits job => (job.run plan emits).map Prod.snd) emits = some after ∧
      ∃ made, list.mapM (Job.changed plan) = some made ∧ left = relos ++ made := by
  induction list generalizing emits relos with
  | nil =>
    cases ran
    exact ⟨rfl, [], rfl, by simp⟩
  | cons job rest ih =>
    obtain ⟨⟨middle, soFar⟩, stepped, later⟩ := Option.bind_eq_some_iff.mp ran
    obtain ⟨⟨relo, bytes⟩, ranJob, same⟩ := Option.map_eq_some_iff.mp stepped
    cases same
    obtain ⟨folded, made, changes, equal⟩ := ih later
    constructor
    · rw [List.foldlM_cons, ranJob]
      exact folded
    · refine ⟨relo :: made, ?_, ?_⟩
      · rw [List.mapM_cons, Job.run_changed ranJob, changes]
        rfl
      · rw [equal]
        simp

variable {origin : Nat → Int} {saved : List Saved}

theorem mem_jobs {job : Job} (member : job ∈ jobs origin saved) :
    ∃ k : Nat, saved[k]? = some job.saved ∧ job.relo ∈ job.saved.modul.relos ∧
      job.origin = originsAfter origin (saved.take k) := by
  induction saved generalizing origin with
  | nil => cases member
  | cons first rest ih =>
    rcases List.mem_append.mp member with here | later
    · obtain ⟨relo, inFirst, rfl⟩ := List.mem_map.mp here
      exact ⟨0, rfl, inFirst, rfl⟩
    · obtain ⟨k, atK, inModul, origins⟩ := ih later
      exact ⟨k + 1, atK, inModul, origins⟩

theorem jobs_mem {k : Nat} {one : Saved} {relo : Relo} (atK : saved[k]? = some one)
    (inModul : relo ∈ one.modul.relos) :
    ⟨one, originsAfter origin (saved.take k), relo⟩ ∈ jobs origin saved := by
  induction saved generalizing origin k with
  | nil => cases atK
  | cons first rest ih =>
    cases k with
    | zero =>
      cases atK
      exact List.mem_append_left _ (List.mem_map_of_mem inModul)
    | succ k => exact List.mem_append_right _ (ih atK)

/-- A relation between relocations of one module, and between relocations of different
modules, holds between all of them. -/
theorem jobs_pairwise {R : Job → Job → Prop} (within : ∀ (k : Nat) (one : Saved), saved[k]? = some one →
      (one.modul.relos.map (Job.mk one (originsAfter origin (saved.take k)))).Pairwise R)
    (across : ∀ (j k : Nat) (one other : Saved) (a b : Relo) (o p : Nat → Int), j < k →
      saved[j]? = some one → saved[k]? = some other → a ∈ one.modul.relos →
      b ∈ other.modul.relos → R ⟨one, o, a⟩ ⟨other, p, b⟩) : (jobs origin saved).Pairwise R := by
  induction saved generalizing origin with
  | nil => exact List.Pairwise.nil
  | cons first rest ih =>
    rw [jobs, List.pairwise_append]
    refine ⟨within 0 first rfl, ?_, ?_⟩
    · apply ih
      · intro k one atK
        exact within (k + 1) one atK
      · intro j k one other a b o p before atJ atK inOne inOther
        exact across (j + 1) (k + 1) one other a b o p (by omega) atJ atK inOne inOther
    · intro a inFirst b later
      obtain ⟨relo, inModul, rfl⟩ := List.mem_map.mp inFirst
      obtain ⟨k, atK, inOther, _⟩ := mem_jobs later
      exact across 0 (k + 1) first b.saved relo b.relo origin b.origin (by omega) rfl atK
        inModul inOther

end Flatten

end AckFormal.Led
