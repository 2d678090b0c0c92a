import AckFormal.Ego.Cf
import Mathlib.Data.Finset.Sort
import Mathlib.Order.Interval.Finset.Nat

/-!
# Live variables

`lv/lv.c` finds for every basic block the variables that are live at its start.
Variables have numbers, those of the globals first and those of the locals
behind them.  A line that loads through a pointer or calls a procedure may use
any variable that is not a register; `def_use` has a set of the variables that
it takes to be used there, into which neither the globals nor the last local
go.
-/

namespace AckFormal.Ego.LiveVariables

open Ego.Lines Lib.Settle

structure Local where
  off : Int
  regvar : Bool

/-- A basic block; the successors are given by their places in the text. -/
structure Block where
  lines : List Line
  succ : List Nat

/-- A procedure with the table of its locals, of which the first has number 1,
and the numbers `o_globnr` of the objects, 0 for an object without one. -/
structure Proc where
  nrglobals : Nat
  globnr : Nat → Nat
  locals : List Local
  blocks : List Block

namespace Proc

def nrlocals (p : Proc) : Nat := p.locals.length

def block (p : Proc) (b : Nat) : Block := p.blocks.getD b ⟨[], []⟩

def lines (p : Proc) (b : Nat) : List Line := (p.block b).lines

def succ (p : Proc) (b : Nat) : List Nat := (p.block b).succ

def isRegvar (p : Proc) (v : Nat) : Bool := ((p.locals[v - 1]?).map Local.regvar).getD false

end Proc

def locToVarnr (p : Proc) (v : Nat) : Nat := v + p.nrglobals

/-- `find_local`; the locals are in the order of their offsets. -/
def findLocal (off : Int) : List Local → Nat → Option Nat
  | [], _ => none
  | lc :: locals, v =>
    if lc.off > off then none else if lc.off = off then some v else findLocal off locals (v + 1)

/-- `var_nr`; a line without one of these operands is not asked for. -/
def varNr (p : Proc) (l : Line) : Option Nat :=
  match l.operand with
  | .opObject o => if p.globnr o = 0 then none else some (p.globnr o)
  | .opShort off => (findLocal off p.locals 1).map (locToVarnr p)
  | .opOffset off => (findLocal off p.locals 1).map (locToVarnr p)
  | _ => none

def isDirUse (l : Line) : Bool :=
  match l.instr with
  | .opDee | .opDel | .opIne | .opInl | .opLde | .opLdl | .opLil | .opLoe | .opLol | .opSil => true
  | _ => false

def isDef (l : Line) : Bool :=
  match l.instr with
  | .opSde | .opSdl | .opSte | .opStl | .opZre | .opZrl => true
  | _ => false

/-- The set `all_ind_uses`, over the loop `for (v = 1; v < nrlocals; v++)`. -/
def allIndUses (p : Proc) : Finset Nat :=
  ((Finset.Ico 1 p.nrlocals).filter fun v => ¬ p.isRegvar v).image (locToVarnr p)

structure DefUse where
  use : Finset Nat
  defs : Finset Nat

def defUseLine (p : Proc) (s : DefUse) (l : Line) : DefUse :=
  if isDef l then
    match varNr p l with
    | some v => if v ∉ s.use then { s with defs := insert v s.defs } else s
    | none => s
  else
    let s := if isDirUse l then
        match varNr p l with
        | some v => if v ∉ s.defs then { s with use := insert v s.use } else s
        | none => s
      else s
    if Cf.isIndirUse l.instr then { s with use := allIndUses p ∪ s.use } else s

def defUse (p : Proc) (b : Nat) : DefUse := (p.lines b).foldl (defUseLine p) ⟨∅, ∅⟩

structure Sets where
  lin : Nat → Finset Nat
  lout : Nat → Finset Nat

def uniteIns (p : Proc) (sets : Sets) (b : Nat) : Finset Nat :=
  (p.succ b).foldl (fun set s => sets.lin s ∪ set) ∅

def flow (p : Proc) (b : Nat) (out : Finset Nat) : Finset Nat :=
  (defUse p b).use ∪ (out \ (defUse p b).defs)

def UsesDirectly (p : Proc) (l : Line) (v : Nat) : Prop := isDirUse l ∧ varNr p l = some v

def Defines (p : Proc) (l : Line) (v : Nat) : Prop := isDef l ∧ varNr p l = some v

/-- From these lines at the end of block `b` on, a use of `v` is reached on some
path before a definition. -/
inductive LiveFrom (p : Proc) (uses : Line → Nat → Prop) (v : Nat) : Nat → List Line → Prop where
  | use {b : Nat} {l : Line} {rest : List Line} (used : uses l v) : LiveFrom p uses v b (l :: rest)
  | pass {b : Nat} {l : Line} {rest : List Line} (kept : ¬ Defines p l v)
      (later : LiveFrom p uses v b rest) : LiveFrom p uses v b (l :: rest)
  | next {b s : Nat} (edge : s ∈ p.succ b) (later : LiveFrom p uses v s (p.lines s)) :
      LiveFrom p uses v b []

def LiveAt (p : Proc) (uses : Line → Nat → Prop) (b v : Nat) : Prop :=
  LiveFrom p uses v b (p.lines b)

/-! ## The scan of a block -/

section Scan

variable {p : Proc} {v : Nat}

theorem isDef_not_use {l : Line} (defines : isDef l = true) :
    isDirUse l = false ∧ Cf.isIndirUse l.instr = false := by
  unfold isDef at defines
  unfold isDirUse Cf.isIndirUse
  generalize l.instr = instr at defines
  cases instr
  case opSde | opSdl | opSte | opStl | opZre | opZrl => exact ⟨rfl, rfl⟩
  all_goals exact nomatch defines

/-- What one line adds to `DEF`. -/
theorem mem_defUseLine_defs (p : Proc) (s : DefUse) (l : Line) (v : Nat) :
    v ∈ (defUseLine p s l).defs ↔ v ∈ s.defs ∨ (Defines p l v ∧ v ∉ s.use) := by
  unfold defUseLine Defines
  by_cases defines : isDef l
  · rw [if_pos defines]
    cases named : varNr p l with
    | none => simp
    | some w =>
      dsimp only
      split
      next unused =>
        rw [Finset.mem_insert, Option.some.injEq]
        constructor
        · rintro (rfl | old)
          · exact Or.inr ⟨⟨defines, rfl⟩, unused⟩
          · exact Or.inl old
        · rintro (old | ⟨⟨-, rfl⟩, -⟩)
          · exact Or.inr old
          · exact Or.inl rfl
      next used =>
        refine ⟨Or.inl, ?_⟩
        rintro (old | ⟨⟨-, same⟩, unused⟩)
        · exact old
        · cases same
          exact absurd unused used
  · rw [if_neg defines]
    have kept : ∀ s : DefUse, (if Cf.isIndirUse l.instr then { s with use := allIndUses p ∪ s.use } else s).defs =
        s.defs := fun s => by split <;> rfl
    rw [kept]
    have same : (if isDirUse l then
        match varNr p l with
        | some v => if v ∉ s.defs then { s with use := insert v s.use } else s
        | none => s
      else s).defs = s.defs := by
      split
      · cases varNr p l with
        | none => rfl
        | some w =>
          dsimp only
          split <;> rfl
      · rfl
    rw [same]
    simp [defines]

/-- What one line adds to `USE`. -/
theorem mem_defUseLine_use (p : Proc) (s : DefUse) (l : Line) (v : Nat) :
    v ∈ (defUseLine p s l).use ↔ v ∈ s.use ∨ (UsesDirectly p l v ∧ v ∉ s.defs) ∨
      (Cf.isIndirUse l.instr ∧ v ∈ allIndUses p) := by
  unfold defUseLine UsesDirectly
  by_cases defines : isDef l
  · obtain ⟨direct, indirect⟩ := isDef_not_use defines
    rw [if_pos defines, direct, indirect]
    have kept : (match varNr p l with
        | some v => if v ∉ s.use then { s with defs := insert v s.defs } else s
        | none => s).use = s.use := by
      cases varNr p l with
      | none => rfl
      | some w =>
        dsimp only
        split <;> rfl
    rw [kept]
    simp
  · rw [if_neg defines]
    have direct : v ∈ (if isDirUse l then
        match varNr p l with
        | some v => if v ∉ s.defs then { s with use := insert v s.use } else s
        | none => s
      else s).use ↔ v ∈ s.use ∨ ((isDirUse l ∧ varNr p l = some v) ∧ v ∉ s.defs) := by
      by_cases use : isDirUse l
      · rw [if_pos use]
        cases named : varNr p l with
        | none => simp
        | some w =>
          dsimp only
          split
          next fresh =>
            rw [Finset.mem_insert, Option.some.injEq]
            constructor
            · rintro (rfl | old)
              · exact Or.inr ⟨⟨use, rfl⟩, fresh⟩
              · exact Or.inl old
            · rintro (old | ⟨⟨-, rfl⟩, -⟩)
              · exact Or.inr old
              · exact Or.inl rfl
          next defined =>
            refine ⟨Or.inl, ?_⟩
            rintro (old | ⟨⟨-, same⟩, fresh⟩)
            · exact old
            · cases same
              exact absurd fresh defined
      · rw [if_neg use]
        simp [use]
    by_cases indirect : Cf.isIndirUse l.instr
    · rw [if_pos indirect, Finset.mem_union, direct]
      simp only [indirect, true_and]
      rw [or_comm, or_assoc]
    · rw [if_neg indirect, direct]
      simp [indirect]

def Exposed (p : Proc) (uses : Line → Nat → Prop) (v : Nat) : List Line → Prop
  | [] => False
  | l :: rest => uses l v ∨ (¬ Defines p l v ∧ Exposed p uses v rest)

variable {s : DefUse} {lines : List Line}

theorem use_kept (lines : List Line) (used : v ∈ s.use) :
    v ∈ (lines.foldl (defUseLine p) s).use := by
  induction lines generalizing s with
  | nil => exact used
  | cons l rest ih => exact ih ((mem_defUseLine_use p s l v).mpr (Or.inl used))

theorem defs_defined (member : v ∈ (lines.foldl (defUseLine p) s).defs) (fresh : v ∉ s.defs) :
    ∃ l ∈ lines, Defines p l v := by
  induction lines generalizing s with
  | nil => exact absurd member fresh
  | cons l rest ih =>
    by_cases now : v ∈ (defUseLine p s l).defs
    · rcases (mem_defUseLine_defs p s l v).mp now with old | ⟨defines, -⟩
      · exact absurd old fresh
      · exact ⟨l, List.mem_cons_self, defines⟩
    · obtain ⟨m, member, defines⟩ := ih member now
      exact ⟨m, List.mem_cons_of_mem _ member, defines⟩

def Counted (p : Proc) (l : Line) (v : Nat) : Prop :=
  UsesDirectly p l v ∨ (Cf.isIndirUse l.instr ∧ v ∈ allIndUses p)

theorem use_of_exposed (exposed : Exposed p (Counted p) v lines) (fresh : v ∉ s.defs) :
    v ∈ (lines.foldl (defUseLine p) s).use := by
  induction lines generalizing s with
  | nil => exact exposed.elim
  | cons l rest ih =>
    rcases exposed with (direct | indirect) | ⟨kept, later⟩
    · exact use_kept rest ((mem_defUseLine_use p s l v).mpr (Or.inr (Or.inl ⟨direct, fresh⟩)))
    · exact use_kept rest ((mem_defUseLine_use p s l v).mpr (Or.inr (Or.inr indirect)))
    · refine ih later fun defined => ?_
      rcases (mem_defUseLine_defs p s l v).mp defined with old | ⟨defines, -⟩
      · exact fresh old
      · exact kept defines

end Scan

/-! ## Paths -/

section Paths

variable {p : Proc} {uses : Line → Nat → Prop} {b v : Nat} {lines : List Line}

theorem LiveFrom.mono {others : Line → Nat → Prop} (wider : ∀ l, uses l v → others l v)
    (live : LiveFrom p uses v b lines) : LiveFrom p others v b lines := by
  induction live with
  | use used => exact .use (wider _ used)
  | pass kept _ ih => exact .pass kept ih
  | next edge _ ih => exact .next edge ih

theorem succ_inside {s : Nat} (edge : s ∈ p.succ b) : b < p.blocks.length := by
  by_contra outside
  rw [Proc.succ, Proc.block, List.getD_eq_getElem?_getD,
    List.getElem?_eq_none (Nat.le_of_not_lt outside)] at edge
  exact nomatch edge

end Paths

/-! ## The equations -/

section Equations

variable {p : Proc} {sets : Sets} {b v : Nat}

theorem mem_uniteIns : v ∈ uniteIns p sets b ↔ ∃ s ∈ p.succ b, v ∈ sets.lin s := by
  have folded : ∀ (bbset : List Nat) (set : Finset Nat),
      v ∈ bbset.foldl (fun set s => sets.lin s ∪ set) set ↔
        v ∈ set ∨ ∃ s ∈ bbset, v ∈ sets.lin s := by
    intro bbset
    induction bbset with
    | nil => simp
    | cons s bbset ih =>
      intro set
      rw [List.foldl_cons, ih, Finset.mem_union, List.exists_mem_cons_iff, or_comm (a := v ∈ _),
        or_assoc]
  rw [uniteIns, folded]
  simp

theorem mem_flow {out : Finset Nat} :
    v ∈ flow p b out ↔ v ∈ (defUse p b).use ∨ (v ∈ out ∧ v ∉ (defUse p b).defs) := by
  rw [flow, Finset.mem_union, Finset.mem_sdiff]

structure Solution (p : Proc) (sets : Sets) : Prop where
  ins : ∀ b, sets.lin b = flow p b (sets.lout b)
  outs : ∀ b < p.blocks.length, uniteIns p sets b = sets.lout b

theorem Solution.mem_lin (solution : Solution p sets)
    (covered : Exposed p (Counted p) v (p.lines b) ∨
      ((∀ l ∈ p.lines b, ¬ Defines p l v) ∧ v ∈ sets.lout b)) : v ∈ sets.lin b := by
  rw [solution.ins, mem_flow]
  rcases covered with exposed | ⟨clean, out⟩
  · exact Or.inl (use_of_exposed exposed (Finset.notMem_empty v))
  · refine Or.inr ⟨out, fun defined => ?_⟩
    obtain ⟨l, member, defines⟩ := defs_defined defined (Finset.notMem_empty v)
    exact clean l member defines

theorem Solution.covered (solution : Solution p sets) {lines : List Line}
    (live : LiveFrom p (Counted p) v b lines) :
    Exposed p (Counted p) v lines ∨ ((∀ l ∈ lines, ¬ Defines p l v) ∧ v ∈ sets.lout b) := by
  induction live with
  | use used => exact Or.inl (Or.inl used)
  | pass kept _ ih =>
    rcases ih with exposed | ⟨clean, out⟩
    · exact Or.inl (Or.inr ⟨kept, exposed⟩)
    · exact Or.inr ⟨List.forall_mem_cons.mpr ⟨kept, clean⟩, out⟩
  | @next b s edge _ ih =>
    refine Or.inr ⟨List.forall_mem_nil _, ?_⟩
    rw [← solution.outs b (succ_inside edge)]
    exact mem_uniteIns.mpr ⟨s, edge, solution.mem_lin ih⟩

theorem Solution.conservative (solution : Solution p sets) (live : LiveAt p (Counted p) b v) :
    v ∈ sets.lin b :=
  solution.mem_lin (solution.covered live)

end Equations

/-! ## The iteration -/

section Iteration

variable {p : Proc} {sets : Sets} {b : Nat}

def allUses (p : Proc) : Finset Nat :=
  (Finset.range p.blocks.length).biUnion fun b => (defUse p b).use

structure Growing (p : Proc) (sets : Sets) : Prop where
  ins : ∀ b, sets.lin b = flow p b (sets.lout b)
  below : ∀ b, sets.lout b ⊆ uniteIns p sets b
  bounded : ∀ b, sets.lin b ⊆ allUses p
  sound : ∀ b, ∀ v ∉ allIndUses p, v ∈ sets.lin b → LiveAt p (UsesDirectly p) b v

/-- The sets after a step that changes `L_IN` and `L_OUT` of block `b`. -/
def updated (p : Proc) (b : Nat) (sets : Sets) : Sets :=
  ⟨Function.update sets.lin b (flow p b (uniteIns p sets b)),
    Function.update sets.lout b (uniteIns p sets b)⟩

def facts (p : Proc) : List (Nat × Nat) :=
  (List.range p.blocks.length).flatMap fun b => ((allUses p).sort (· ≤ ·)).map (b, ·)

end Iteration

/-! ## The uses that are left out -/

section Missing

variable {p : Proc} {v : Nat}

end Missing

end AckFormal.Ego.LiveVariables
