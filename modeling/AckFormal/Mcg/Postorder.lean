import AckFormal.Lib.Dominators
import AckFormal.Mcg.DominanceGraph
import Mathlib.Data.Fintype.Card

/-!
# The walk numbers a spanning tree

A block is linked to the block from which it was first reached.  The pending blocks
are the ancestors of the block being visited.
-/

namespace AckFormal.Mcg.Postorder

open AckFormal.Data Lib.Dominators DominanceGraph Relation
open List (mem_append mem_append_left mem_singleton mem_singleton_self nodup_append pairwise_append)

variable {Block : Type}

def visited (walk : Walk Block) : List Block := walk.postorder ++ walk.pending

structure Searched (cfg : Cfg Block) (link : Block → Block → Prop) (walk : Walk Block) : Prop where
  nodup : (visited walk).Nodup
  order : ∀ {i : Nat} {b : Block}, walk.postorder[i]? = some b → walk.order b = i
  child : ∀ {c p}, link c p → c ∈ visited walk ∧ p ∈ visited walk
  ends : ∀ {c p}, link c p → c ≠ cfg.entry ∧ c ≠ p
  functional : ∀ {c p p'}, link c p → link c p' → p = p'
  edge : ∀ {c p}, link c p → c ∈ cfg.nexts p
  root : ∀ b ∈ visited walk, ReflTransGen link b cfg.entry
  stack : walk.pending.Pairwise fun a b => ReflTransGen link b a ∧ ¬ link a b
  finished : ∀ {c p}, link c p → p ∈ walk.postorder →
    c ∈ walk.postorder ∧ walk.order c < walk.order p
  back : ∀ x ∈ walk.postorder, ∀ y ∈ cfg.nexts x,
    y ∈ walk.postorder ∧ walk.order y < walk.order x ∨ ReflTransGen link x y

/-- A visit of `bb` starts at the entry, or from the last pending block. -/
inductive Reached (cfg : Cfg Block) (bb : Block) (walk : Walk Block) : Option Block → Prop where
  | entry (isEntry : bb = cfg.entry) (first : walk.pending = []) (start : walk.postorder = []) :
      Reached cfg bb walk none
  | next {before : List Block} {caller : Block} (last : walk.pending = before ++ [caller])
      (edge : bb ∈ cfg.nexts caller) : Reached cfg bb walk (some caller)

def linked (link : Block → Block → Prop) (bb : Block) (caller : Option Block) (c p : Block) : Prop :=
  link c p ∨ c = bb ∧ caller = some p

variable {cfg : Cfg Block} {link : Block → Block → Prop} {walk : Walk Block} {bb : Block}
  {x : Block}

theorem mem_visited : x ∈ visited walk ↔ x ∈ walk.postorder ∨ x ∈ walk.pending :=
  mem_append

theorem linked_mono {caller : Option Block} {x y : Block} (climb : ReflTransGen link x y) :
    ReflTransGen (linked link bb caller) x y :=
  ReflTransGen.mono (fun _ _ known => Or.inl known) x y climb

namespace Searched

variable (searched : Searched cfg link walk)
include searched

theorem visited_above {x y : Block} (member : x ∈ visited walk)
    (climb : ReflTransGen link x y) : y ∈ visited walk := by
  induction climb with
  | refl => exact member
  | tail _ last _ => exact (searched.child last).2

theorem disjoint (member : x ∈ walk.postorder) :
    x ∉ walk.pending :=
  fun pending => (nodup_append.1 searched.nodup).2.2 x member x pending rfl

theorem stack_last {before : List Block} {last y : Block}
    (isLast : walk.pending = before ++ [last]) (member : y ∈ walk.pending) :
    ReflTransGen link last y := by
  have stack := searched.stack
  rw [isLast, pairwise_append] at stack
  rw [isLast, mem_append, mem_singleton] at member
  obtain member | same := member
  · exact (stack.2.2 y member last (mem_singleton_self last)).1
  · rw [same]

theorem caller {p : Block} (reached : Reached cfg bb walk (some p)) :
    p ∈ walk.pending ∧ bb ∈ cfg.nexts p ∧ cfg.entry ∈ visited walk ∧
      ∀ y ∈ walk.pending, ReflTransGen link p y := by
  cases reached with
  | next last edge =>
    have pending : p ∈ walk.pending := by
      rw [last]
      exact List.mem_append_right _ (mem_singleton_self p)
    have member : p ∈ visited walk := mem_visited.2 (Or.inr pending)
    exact ⟨pending, edge, searched.visited_above member (searched.root p member),
      fun y pending => searched.stack_last last pending⟩

end Searched

variable [DecidableEq Block]

/-! ## The start of a visit -/

theorem pending_enter (new : bb ∉ visited walk) :
    (walk.enter bb).pending = walk.pending ++ [bb] :=
  congrArg Prod.fst (if_neg fun member => new (mem_visited.2 (Or.inr member)))

theorem visited_enter (new : bb ∉ visited walk) : visited (walk.enter bb) = visited walk ++ [bb] := by
  rw [visited, pending_enter new, ← List.append_assoc]
  rfl

/-- Entering a block keeps what holds of a search. -/
theorem Searched.enter (searched : Searched cfg link walk) {caller : Option Block}
    (reached : Reached cfg bb walk caller) (new : bb ∉ visited walk) :
    Searched cfg (linked link bb caller) (walk.enter bb) where
  nodup := by
    rw [visited_enter new]
    exact nodup_append.2 ⟨searched.nodup, List.nodup_singleton bb, by
      intro x member y isNew same
      rw [same, mem_singleton.1 isNew] at member
      exact new member⟩
  order := searched.order
  child := by
    rw [visited_enter new]
    rintro c p (known | ⟨rfl, rfl⟩)
    · exact (searched.child known).imp (mem_append_left _) (mem_append_left _)
    · have pending := (searched.caller reached).1
      exact ⟨by simp, mem_append_left _ (mem_visited.2 (Or.inr pending))⟩
  ends := by
    rintro c p (known | ⟨rfl, rfl⟩)
    · exact searched.ends known
    · obtain ⟨pending, _, entry, _⟩ := searched.caller reached
      constructor
      · rintro rfl
        exact new entry
      · rintro rfl
        exact new (mem_visited.2 (Or.inr pending))
  functional := by
    rintro c p p' (known | ⟨rfl, isCaller⟩) (known' | ⟨isNew, isCaller'⟩)
    · exact searched.functional known known'
    · exact absurd (isNew ▸ (searched.child known).1) new
    · exact absurd (searched.child known').1 new
    · exact Option.some.inj (isCaller.symm.trans isCaller')
  edge := by
    rintro c p (known | ⟨rfl, rfl⟩)
    · exact searched.edge known
    · exact (searched.caller reached).2.1
  root b member := by
    rw [visited_enter new, mem_append, mem_singleton] at member
    obtain member | rfl := member
    · exact linked_mono (searched.root b member)
    · cases caller with
      | none =>
        cases reached with
        | entry isEntry first start => rw [isEntry]
      | some p =>
        have pending := (searched.caller reached).1
        have above := searched.root p (mem_visited.2 (Or.inr pending))
        exact (linked_mono above).head (Or.inr ⟨rfl, rfl⟩)
  stack := by
    rw [pending_enter new, pairwise_append]
    refine ⟨?_, List.pairwise_singleton _ bb, ?_⟩
    · refine searched.stack.imp_of_mem fun memberA _ above => ⟨linked_mono above.1, ?_⟩
      rintro (known | ⟨rfl, _⟩)
      · exact above.2 known
      · exact new (mem_visited.2 (Or.inr memberA))
    · intro a member b isNew
      obtain rfl := mem_singleton.1 isNew
      constructor
      · cases reached with
        | entry isEntry first start =>
          rw [first] at member
          cases member
        | @next before caller last edge =>
          exact (linked_mono (searched.stack_last last member)).head (Or.inr ⟨rfl, rfl⟩)
      · rintro (known | ⟨rfl, _⟩)
        · exact new (searched.child known).2
        · exact new (mem_visited.2 (Or.inr member))
  finished := by
    rintro c p (known | ⟨rfl, rfl⟩) done
    · exact searched.finished known done
    · exact absurd (searched.caller reached).1 (searched.disjoint done)
  back x done y next := (searched.back x done y next).imp_right linked_mono

/-! ## The end of a visit -/

/-- `bb` is the last pending block, and the blocks after it have been reached. -/
structure Leaving (cfg : Cfg Block) (link : Block → Block → Prop) (walk : Walk Block) (bb : Block)
    (before : List Block) : Prop where
  searched : Searched cfg link walk
  last : walk.pending = before ++ [bb]
  nexts : ∀ y ∈ cfg.nexts bb, y ∈ visited walk

namespace Leaving

variable {before : List Block} (leaving : Leaving cfg link walk bb before)
include leaving

omit [DecidableEq Block] in
theorem pending : bb ∈ walk.pending := by
  rw [leaving.last]
  exact List.mem_append_right _ (mem_singleton_self bb)

omit [DecidableEq Block] in
theorem new : bb ∉ walk.postorder :=
  fun done => leaving.searched.disjoint done leaving.pending

omit [DecidableEq Block] in
theorem notBefore : bb ∉ before := by
  intro member
  have nodup := (nodup_append.1 leaving.searched.nodup).2.1
  rw [leaving.last, nodup_append] at nodup
  exact nodup.2.2 bb member bb (mem_singleton_self bb) rfl

theorem pending_leave : (walk.leave bb).pending = before := by
  change walk.pending.erase bb = before
  rw [leaving.last, List.erase_append_right _ leaving.notBefore, List.erase_cons_head,
    List.append_nil]

theorem postorder_leave : (walk.leave bb).postorder = walk.postorder ++ [bb] :=
  congrArg Prod.fst (if_neg leaving.new)

theorem visited_leave : (visited (walk.leave bb)).Perm (visited walk) := by
  rw [visited, visited, leaving.pending_leave, leaving.postorder_leave, leaving.last,
    List.append_assoc]
  exact List.perm_append_comm.append_left walk.postorder

theorem order_leave (done : x ∈ walk.postorder) :
    (walk.leave bb).order x = walk.order x := by
  refine Function.update_of_ne ?_ _ _
  rintro rfl
  exact leaving.new done

omit leaving in
theorem order_leave_self : (walk.leave bb).order bb = walk.postorder.length :=
  Function.update_self bb _ _

theorem order_lt (done : x ∈ walk.postorder) :
    (walk.leave bb).order x < (walk.leave bb).order bb := by
  obtain ⟨i, here⟩ := List.getElem?_of_mem done
  rw [leaving.order_leave done, order_leave_self, leaving.searched.order here]
  exact (List.getElem?_eq_some_iff.1 here).1

theorem mem_leave (done : x ∈ walk.postorder) : x ∈ (walk.leave bb).postorder := by
  rw [leaving.postorder_leave]
  exact mem_append_left _ done

/-- Leaving a block keeps what holds of a search. -/
theorem leave : Searched cfg link (walk.leave bb) where
  nodup := leaving.visited_leave.nodup_iff.2 leaving.searched.nodup
  order := by
    intro i b here
    rw [leaving.postorder_leave] at here
    by_cases old : i < walk.postorder.length
    · rw [List.getElem?_append_left old] at here
      rw [leaving.order_leave (List.mem_of_getElem? here)]
      exact leaving.searched.order here
    · rw [List.getElem?_append_right (Nat.not_lt.1 old), List.getElem?_singleton] at here
      split at here
      next last =>
        cases here
        rw [order_leave_self]
        omega
      next => cases here
  child known := by
    have members := leaving.searched.child known
    exact members.imp leaving.visited_leave.mem_iff.2 leaving.visited_leave.mem_iff.2
  ends := leaving.searched.ends
  functional := leaving.searched.functional
  edge := leaving.searched.edge
  root b member := leaving.searched.root b (leaving.visited_leave.mem_iff.1 member)
  stack := by
    rw [leaving.pending_leave]
    have stack := leaving.searched.stack
    rw [leaving.last, pairwise_append] at stack
    exact stack.1
  finished := by
    intro c p known done
    rw [leaving.postorder_leave, mem_append, mem_singleton] at done
    obtain done | rfl := done
    · obtain ⟨doneC, lower⟩ := leaving.searched.finished known done
      rw [leaving.order_leave doneC, leaving.order_leave done]
      exact ⟨leaving.mem_leave doneC, lower⟩
    · -- `c` is not pending: the pending blocks are above `p`
      have doneC : c ∈ walk.postorder := by
        obtain doneC | pendingC := mem_visited.1 (leaving.searched.child known).1
        · exact doneC
        · have stack := leaving.searched.stack
          rw [leaving.last, mem_append, mem_singleton] at pendingC
          rw [leaving.last, pairwise_append] at stack
          obtain member | same := pendingC
          · exact absurd known (stack.2.2 c member p (mem_singleton_self p)).2
          · exact absurd same (leaving.searched.ends known).2
      exact ⟨leaving.mem_leave doneC, leaving.order_lt doneC⟩
  back x done y next := by
    rw [leaving.postorder_leave, mem_append, mem_singleton] at done
    obtain done | rfl := done
    · refine (leaving.searched.back x done y next).imp_left fun ⟨doneY, lower⟩ => ?_
      rw [leaving.order_leave doneY, leaving.order_leave done]
      exact ⟨leaving.mem_leave doneY, lower⟩
    · obtain doneY | pendingY := mem_visited.1 (leaving.nexts y next)
      · exact Or.inl ⟨leaving.mem_leave doneY, leaving.order_lt doneY⟩
      · exact Or.inr (leaving.searched.stack_last leaving.last pendingY)

end Leaving

/-! ## Visits -/

structure Done (cfg : Cfg Block) (walk walk' : Walk Block) : Prop where
  searched : ∃ link, Searched cfg link walk'
  pending : walk'.pending = walk.pending
  kept : ∀ x ∈ visited walk, x ∈ visited walk'

omit [DecidableEq Block] in
theorem Done.trans {walk' walk'' : Walk Block} (first : Done cfg walk walk')
    (second : Done cfg walk' walk'') : Done cfg walk walk'' where
  searched := second.searched
  pending := second.pending.trans first.pending
  kept x member := second.kept x (first.kept x member)

variable [Fintype Block]

/-- The fuel is more than the number of blocks that have not been reached. -/
def Enough (fuel : Nat) (walk : Walk Block) : Prop :=
  Fintype.card Block < fuel + (visited walk).length

omit [DecidableEq Block] in
theorem Enough.done {fuel : Nat} {walk' : Walk Block} (enough : Enough fuel walk)
    (searched : Searched cfg link walk) (done : Done cfg walk walk') : Enough fuel walk' := by
  have longer := (searched.nodup.subperm done.kept).length_le
  unfold Enough at enough ⊢
  omega

omit [DecidableEq Block] in
theorem walkNexts_done {visit : Block → Walk Block → Option (Walk Block)} {fuel : Nat}
    {before : List Block}
    (ih : ∀ {walk : Walk Block} {link : Block → Block → Prop} {y : Block},
      Searched cfg link walk → Reached cfg y walk (some bb) → Enough fuel walk →
      ∃ walk', visit y walk = some walk' ∧ Done cfg walk walk' ∧ y ∈ visited walk')
    (searched : Searched cfg link walk) (last : walk.pending = before ++ [bb])
    (enough : Enough fuel walk) {nexts : List Block} (edges : ∀ y ∈ nexts, y ∈ cfg.nexts bb) :
    ∃ walk', walkNexts visit nexts walk = some walk' ∧ Done cfg walk walk' ∧
      ∀ y ∈ nexts, y ∈ visited walk' := by
  induction nexts generalizing walk link with
  | nil => exact ⟨walk, rfl, ⟨⟨link, searched⟩, rfl, fun _ member => member⟩, nofun⟩
  | cons y nexts ihNexts =>
    obtain ⟨edge, edges⟩ := List.forall_mem_cons.1 edges
    obtain ⟨walk₁, result, done, member⟩ := ih searched (.next last edge) enough
    obtain ⟨link₁, searched₁⟩ := done.searched
    obtain ⟨walk₂, results, others, members⟩ :=
      ihNexts searched₁ (done.pending.trans last) (enough.done searched done) edges
    refine ⟨walk₂, ?_, done.trans others, List.forall_mem_cons.2 ⟨others.kept y member, members⟩⟩
    rw [walkNexts, result]
    exact results

/-- The walk from a block visits what can be reached, and ends. -/
theorem recursivelyWalk_done (fuel : Nat) (searched : Searched cfg link walk)
    {caller : Option Block} (reached : Reached cfg bb walk caller) (enough : Enough fuel walk) :
    ∃ walk', recursivelyWalkCfgGraph cfg fuel bb walk = some walk' ∧ Done cfg walk walk' ∧
      bb ∈ visited walk' := by
  induction fuel generalizing walk link bb caller with
  | zero =>
    have most := searched.nodup.length_le_card
    unfold Enough at enough
    omega
  | succ fuel ih =>
    rw [recursivelyWalkCfgGraph]
    by_cases known : bb ∈ visited walk
    · rw [if_pos (mem_visited.1 known)]
      exact ⟨walk, rfl, ⟨⟨link, searched⟩, rfl, fun _ member => member⟩, known⟩
    · rw [if_neg (mem_visited.not.1 known)]
      have entered := searched.enter reached known
      have enough' : Enough fuel (walk.enter bb) := by
        unfold Enough at enough ⊢
        rw [visited_enter known, List.length_append, List.length_singleton]
        omega
      obtain ⟨walk₁, result, done, members⟩ :=
        walkNexts_done (fun searched reached enough => ih searched reached enough) entered
          (pending_enter known) enough' (fun y member => member)
      obtain ⟨link₁, searched₁⟩ := done.searched
      have leaving : Leaving cfg link₁ walk₁ bb walk.pending :=
        ⟨searched₁, done.pending.trans (pending_enter known), members⟩
      refine ⟨walk₁.leave bb, ?_, ⟨⟨link₁, leaving.leave⟩, leaving.pending_leave, ?_⟩, ?_⟩
      · rw [result]
      · intro x member
        refine leaving.visited_leave.mem_iff.2 (done.kept x ?_)
        rw [visited_enter known]
        exact mem_append_left _ member
      · exact leaving.visited_leave.mem_iff.2 (mem_visited.2 (Or.inr leaving.pending))

/-! ## The whole walk -/

def Edge (cfg : Cfg Block) (p b : Block) : Prop := b ∈ cfg.nexts p

def Rooted (cfg : Cfg Block) : Prop := ∀ b, ∃ path, Path (Edge cfg) cfg.entry b path

structure Numbered (cfg : Cfg Block) (walk : Walk Block) : Prop where
  nodup : walk.postorder.Nodup
  all : ∀ b, b ∈ walk.postorder
  order : ∀ {i : Nat} {b : Block}, walk.postorder[i]? = some b → walk.order b = i
  tree : ∃ parent, parent cfg.entry = cfg.entry ∧
    SpanningTree (Edge cfg) cfg.entry walk.order parent

section

omit [DecidableEq Block] [Fintype Block]

theorem mem_postorder (ended : walk.pending = []) (member : x ∈ visited walk) :
    x ∈ walk.postorder := by
  rwa [visited, ended, List.append_nil] at member

namespace Searched

variable (searched : Searched cfg link walk)
include searched

theorem all (ended : walk.pending = []) (entry : cfg.entry ∈ visited walk) (rooted : Rooted cfg)
    (b : Block) : b ∈ walk.postorder := by
  obtain ⟨path, toB⟩ := rooted b
  induction toB with
  | entry => exact mem_postorder ended entry
  | @step p b path before next ih =>
    obtain done | above := searched.back p ih b next
    · exact done.1
    · have member := searched.visited_above (mem_visited.2 (Or.inl ih)) above
      exact mem_postorder ended member

theorem tree (all : ∀ b, b ∈ walk.postorder) :
    ∃ parent, parent cfg.entry = cfg.entry ∧
      SpanningTree (Edge cfg) cfg.entry walk.order parent := by
  have linked (b : Block) : ∃ p, (b = cfg.entry → p = b) ∧ (b ≠ cfg.entry → link b p) := by
    obtain same | ⟨p, known, -⟩ :=
      ReflTransGen.cases_head (searched.root b (mem_visited.2 (Or.inl (all b))))
    · exact ⟨b, fun _ => rfl, fun other => absurd same other⟩
    · exact ⟨p, fun same => absurd same (searched.ends known).1, fun _ => known⟩
  choose parent isRoot isParent using linked
  have hop {c p : Block} (known : link c p) : Hop cfg.entry parent c p := by
    have other := (searched.ends known).1
    exact ⟨other, searched.functional known (isParent c other)⟩
  have above {b a : Block} (climb : ReflTransGen link b a) : Above cfg.entry parent b a :=
    ReflTransGen.mono (fun _ _ => hop) b a climb
  refine ⟨parent, isRoot _ rfl, ?_, fun b other => searched.edge (isParent b other),
    fun b other => (searched.finished (isParent b other) (all _)).2,
    fun b => above (searched.root b (mem_visited.2 (Or.inl (all b)))),
    fun p b next => (searched.back p (all p) b next).imp And.right above⟩
  intro b c same
  obtain ⟨i, isB⟩ := List.getElem?_of_mem (all b)
  obtain ⟨j, isC⟩ := List.getElem?_of_mem (all c)
  rw [searched.order isB, searched.order isC] at same
  rw [same] at isB
  exact Option.some.inj (isB.symm.trans isC)

end Searched

theorem searched_nil (cfg : Cfg Block) (order : Block → Nat) :
    Searched cfg (fun _ _ => False) ⟨order, [], [], []⟩ where
  nodup := List.nodup_nil
  order := nofun
  child := False.elim
  ends := False.elim
  functional := False.elim
  edge := False.elim
  root := nofun
  stack := List.Pairwise.nil
  finished := False.elim
  back := nofun

end

theorem walkCfgGraph_numbered (rooted : Rooted cfg) {fuel : Nat}
    (enough : Fintype.card Block < fuel) (order : Block → Nat) :
    ∃ walk, walkCfgGraph cfg fuel order = some walk ∧ Numbered cfg walk := by
  obtain ⟨walk, result, done, entry⟩ :=
    recursivelyWalk_done fuel (searched_nil cfg order) (.entry rfl rfl rfl) enough
  obtain ⟨link, searched⟩ := done.searched
  have all := searched.all done.pending entry rooted
  exact ⟨walk, result, (nodup_append.1 searched.nodup).1, all, searched.order,
    searched.tree all⟩

end AckFormal.Mcg.Postorder
