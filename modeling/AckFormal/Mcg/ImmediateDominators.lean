import AckFormal.Mcg.Intersections
import AckFormal.Mcg.Postorder
import Mathlib.Algebra.Order.BigOperators.Group.Finset

/-!
# Immediate dominators

The passes over the blocks are rounds of turns.  The guess of a block that is not in
the graph yet is its parent; skipping it then makes no difference.
-/

namespace AckFormal.Mcg.ImmediateDominators

open AckFormal.Data Lib.Dominators DominanceGraph Intersections Postorder

variable {Block : Type} [DecidableEq Block]

theorem find_put (graph : Graph Block) (b : Block) (right : Option Block) (c : Block) :
    Graph.find (Pmap.put graph b right) c = if b = c then right else graph.find c := by
  unfold Graph.find
  rw [Pmap.findleft_put]
  split
  next => rfl
  next => rfl

def Agrees (cfg : Cfg Block) : Prop := ∀ p b, p ∈ cfg.prevs b ↔ b ∈ cfg.nexts p

/-- What holds when the blocks from `bound` on have had their turn in this pass: either
all blocks are known, or these. -/
structure Held (cfg : Cfg Block) (order : Block → Nat) (parent : Block → Block) (bound : Nat)
    (graph : Graph Block) : Prop where
  entry : graph.find cfg.entry = some cfg.entry
  guesses : Guesses (Edge cfg) cfg.entry order parent (guess parent graph)
  nested : Nested cfg.entry order parent (guess parent graph) bound
  known : ∀ b, bound ≤ order b → (graph.find b).isSome
  fresh : (∀ b, (graph.find b).isSome) ∨ ∀ b, order b < bound → graph.find b = none

variable {cfg : Cfg Block} {order : Block → Nat} {parent : Block → Block}

variable {graph : Graph Block}

theorem Held.climbable (tree : SpanningTree (Edge cfg) cfg.entry order parent) {bound : Nat}
    (held : Held cfg order parent bound graph) :
    Climbable cfg.entry order parent graph where
  injective := tree.injective
  rises := held.guesses.ancestral.rises tree
  most := tree.entry_order
  closed := by
    intro b p other found
    obtain all | fresh := held.fresh
    · exact all p
    · have had : bound ≤ order b := by
        by_contra notYet
        rw [fresh b (Nat.not_le.1 notYet)] at found
        cases found
      have higher := held.guesses.ancestral.rises tree b other
      rw [guess_of_find found] at higher
      exact held.known p (Nat.le_trans had (Nat.le_of_lt higher))

/-! ## A turn -/

section

variable (agrees : Agrees cfg) (tree : SpanningTree (Edge cfg) cfg.entry order parent)
  {b : Block} (other : b ≠ cfg.entry) {graph : Graph Block}
  (held : Held cfg order parent (order b + 1) graph)
include tree other held

/-- A predecessor that is not known is below `b`, and its guesses lead to the parent
of `b`. -/
theorem above_parent {p : Block} (next : Edge cfg p b) (unknown : graph.find p = none) :
    Above cfg.entry (guess parent graph) p (parent b) := by
  have notYet (c : Block) (lower : order c ≤ order b) : guess parent graph c = parent c := by
    obtain all | fresh := held.fresh
    · have known := all p
      rw [unknown] at known
      cases known
    · rw [guess, fresh c (Nat.lt_succ_of_le lower)]
      rfl
  have first : Above cfg.entry (guess parent graph) b (parent b) := by
    refine Above.up other ?_
    rw [notYet b (Nat.le_refl _)]
    exact Above.refl _
  obtain upper | below := tree.back p b next
  · have known := held.known p upper
    rw [unknown] at known
    cases known
  · refine (below.climb (motive := fun c => Above cfg.entry (guess parent graph) c b)
      (Above.refl b) ?_).trans first
    intro c isOther rest ih
    have lower := Nat.le_trans (Nat.le_of_lt (tree.rises c isOther)) (rest.order_le tree.rises)
    refine Above.up isOther ?_
    rwa [notYet c lower]

include agrees

theorem exists_turn {fuel : Nat} (enough : 3 * order cfg.entry < fuel) :
    ∃ x, newIdom order graph fuel (cfg.prevs b) none = some (some x) ∧
      (graph.find x).isSome ∧ Turn (Edge cfg) cfg.entry order parent (guess parent graph) b x := by
  have knownParent : (graph.find (parent b)).isSome := held.known (parent b) (tree.rises b other)
  have isPrev : parent b ∈ cfg.prevs b := (agrees _ _).2 (tree.next b other)
  obtain ⟨idom, result, isLowest⟩ :=
    @(held.climbable tree).newIdom _ _ _ _ _ _ fuel enough (cfg.prevs b) [] none nofun
  cases idom with
  | none =>
    rw [isLowest (parent b) isPrev] at knownParent
    cases knownParent
  | some x =>
    obtain ⟨known, common, lowest⟩ := isLowest
    refine ⟨x, result, known, tree, held.guesses, held.nested, other, fun p next => ?_,
      fun y toY => ?_⟩
    · cases found : graph.find p with
      | none => exact (above_parent tree other held next found).trans (common _ isPrev knownParent)
      | some up => exact common p ((agrees p b).2 next) (by rw [found]; rfl)
    · have above := lowest y fun p member _ => toY p ((agrees p b).1 member)
      exact above.order_le (held.guesses.ancestral.rises tree)

end

/-! ## Passes -/

structure Advanced (cfg : Cfg Block) (order : Block → Nat) (parent : Block → Block) (bound : Nat)
    (blocks : List Block) (graph : Graph Block) (changed : Bool) (graph' : Graph Block)
    (changed' : Bool) : Prop where
  held : Held cfg order parent bound graph'
  known : ∀ b, (graph.find b).isSome → (graph'.find b).isSome
  rises : ∀ b, order (guess parent graph b) ≤ order (guess parent graph' b)
  quiet : changed' = false → changed = false ∧ graph' = graph
  loud : (∀ b, (graph.find b).isSome) → changed = false → changed' = true →
    ∃ b, order (guess parent graph b) < order (guess parent graph' b)
  closed : changed' = false → ∀ b ∈ blocks, ∀ p, Edge cfg p b →
    Above cfg.entry (guess parent graph') p (guess parent graph' b)

theorem Advanced.nil {bound : Nat} (held : Held cfg order parent bound graph) (changed : Bool) :
    Advanced cfg order parent bound [] graph changed graph changed where
  held := held
  known _ known := known
  rises _ := Nat.le_refl _
  quiet same := ⟨same, rfl⟩
  loud := by
    intro _ quiet loud
    rw [quiet] at loud
    cases loud
  closed _ := nofun

variable {blocks : List Block} {b : Block}

theorem Advanced.cons {bound bound' : Nat}
    {graph graph₁ graph₂ : Graph Block} {changed changed₁ changed₂ : Bool}
    (first : Advanced cfg order parent bound' [b] graph changed graph₁ changed₁)
    (others : Advanced cfg order parent bound blocks graph₁ changed₁ graph₂ changed₂) :
    Advanced cfg order parent bound (b :: blocks) graph changed graph₂ changed₂ where
  held := others.held
  known c known := others.known c (first.known c known)
  rises c := Nat.le_trans (first.rises c) (others.rises c)
  quiet still := by
    obtain ⟨still₁, same₂⟩ := others.quiet still
    obtain ⟨still₀, same₁⟩ := first.quiet still₁
    exact ⟨still₀, same₂.trans same₁⟩
  loud known quiet loud := by
    cases still : changed₁ with
    | true =>
      obtain ⟨c, higher⟩ := first.loud known quiet still
      exact ⟨c, Nat.lt_of_lt_of_le higher (others.rises c)⟩
    | false =>
      obtain ⟨c, higher⟩ := others.loud (fun c => first.known c (known c)) still loud
      exact ⟨c, Nat.lt_of_le_of_lt (first.rises c) higher⟩
  closed still := by
    obtain ⟨still₁, same₂⟩ := others.quiet still
    refine List.forall_mem_cons.2 ⟨?_, others.closed still⟩
    rw [same₂]
    exact first.closed still₁ b (List.mem_singleton_self b)

/-- The right element of `b` is put, unless it is there already. -/
theorem guess_put (graph : Graph Block) (b x : Block) :
    guess parent (Pmap.put graph b (some x)) = Function.update (guess parent graph) b x := by
  funext c
  rw [guess, find_put]
  by_cases same : c = b
  · rw [if_pos same.symm, same, Function.update_self]
    rfl
  · rw [if_neg (Ne.symm same), Function.update_of_ne same]
    rfl

variable {graph : Graph Block}

theorem Held.put {b x : Block} (other : b ≠ cfg.entry)
    (held : Held cfg order parent (order b + 1) graph)
    (turn : Turn (Edge cfg) cfg.entry order parent (guess parent graph) b x) :
    Held cfg order parent (order b) (Pmap.put graph b (some x)) where
  entry := by
    rw [find_put, if_neg other]
    exact held.entry
  guesses := by
    rw [guess_put]
    exact turn.guesses_update
  nested := by
    rw [guess_put]
    exact turn.nested_update
  known c had := by
    rw [find_put]
    split
    next => rfl
    next differs =>
      have apart : order b ≠ order c := fun same => differs (turn.tree.injective same)
      exact held.known c (by omega)
  fresh := by
    refine held.fresh.imp (fun all c => ?_) fun fresh c notYet => ?_
    · rw [find_put]
      split
      next => rfl
      next => exact all c
    · rw [find_put, if_neg, fresh c (by omega)]
      rintro rfl
      exact absurd notYet (Nat.lt_irrefl _)

theorem put_of_find {b x : Block} (found : graph.find b = some x) :
    Pmap.put graph b (some x) = graph :=
  Pmap.put_of_some (Option.join_eq_some_iff.1 found)

section

variable {fuel : Nat} (agrees : Agrees cfg)
  (tree : SpanningTree (Edge cfg) cfg.entry order parent) (enough : 3 * order cfg.entry < fuel)
include agrees tree enough

/-- One block of a round: no guess falls, and a change is told. -/
theorem considerBlock_advanced (other : b ≠ cfg.entry)
    (held : Held cfg order parent (order b + 1) graph) (changed : Bool) :
    ∃ graph' changed', considerBlock cfg order fuel b graph changed = some (graph', changed') ∧
      Advanced cfg order parent (order b) [b] graph changed graph' changed' := by
  obtain ⟨x, result, known, turn⟩ := exists_turn agrees tree other held enough
  have after := held.put other turn
  rw [considerBlock, result]
  dsimp only
  by_cases found : graph.find b = some x
  · rw [if_neg (not_not.2 found)]
    rw [put_of_find found] at after
    have none := Advanced.nil after changed
    refine ⟨graph, changed, rfl, after, none.known, none.rises, none.quiet, none.loud, ?_⟩
    intro _ c isB p next
    obtain rfl := List.mem_singleton.1 isB
    rw [guess_of_find found]
    exact turn.meet.common p next
  · rw [if_pos found]
    refine ⟨_, true, rfl, after, fun c known => ?_, fun c => ?_, nofun, fun all _ _ => ?_, nofun⟩
    · rw [find_put]
      split
      next => rfl
      next => exact known
    · rw [guess_put]
      exact turn.le_update c
    · obtain ⟨m, isM⟩ := Option.isSome_iff_exists.1 (all b)
      have higher := turn.rises
      refine ⟨b, ?_⟩
      rw [guess_put, Function.update_self]
      have isGuess : guess parent graph b = m := guess_of_find isM
      refine Nat.lt_of_le_of_ne higher fun same => found ?_
      rw [isM, ← isGuess, tree.injective same]

theorem considerBlocks_advanced
    (numbered : ∀ {i : Nat} {b : Block}, blocks[i]? = some b → order b = i ∧ b ≠ cfg.entry)
    (held : Held cfg order parent blocks.length graph) (changed : Bool) :
    ∃ graph' changed',
      considerBlocks cfg order fuel blocks.reverse graph changed = some (graph', changed') ∧
        Advanced cfg order parent 0 blocks.reverse graph changed graph' changed' := by
  induction blocks using List.reverseRecOn generalizing graph changed with
  | nil => exact ⟨graph, changed, rfl, .nil held changed⟩
  | append_singleton blocks b ih =>
    have last : (blocks ++ [b])[blocks.length]? = some b := by simp
    obtain ⟨isOrder, other⟩ := numbered last
    rw [List.length_append, List.length_singleton, ← isOrder] at held
    obtain ⟨graph₁, changed₁, result, first⟩ :=
      considerBlock_advanced agrees tree enough other held changed
    rw [List.reverse_append, List.reverse_singleton, List.singleton_append, considerBlocks, result]
    have held₁ := first.held
    rw [isOrder] at held₁
    have earlier {i : Nat} {c : Block} (here : blocks[i]? = some c) : order c = i ∧ c ≠ cfg.entry :=
      numbered (List.getElem?_append_left (List.getElem?_eq_some_iff.1 here).1 ▸ here)
    obtain ⟨graph₂, changed₂, results, others⟩ := ih earlier held₁ changed₁
    exact ⟨graph₂, changed₂, results, first.cons others⟩

end

/-! ## The loop -/

section

variable {walk : Walk Block} (numbered : Numbered cfg walk)
  (tree : SpanningTree (Edge cfg) cfg.entry walk.order parent)
include numbered tree

omit [DecidableEq Block] in
theorem order_entry : walk.order cfg.entry + 1 = walk.postorder.length := by
  obtain ⟨i, isEntry⟩ := List.getElem?_of_mem (numbered.all cfg.entry)
  have bound := (List.getElem?_eq_some_iff.1 isEntry).1
  obtain ⟨c, isLast⟩ : ∃ c, walk.postorder[walk.postorder.length - 1]? = some c :=
    ⟨_, List.getElem?_eq_getElem (by omega)⟩
  have most := tree.entry_order c
  rw [numbered.order isLast, numbered.order isEntry] at most
  rw [numbered.order isEntry]
  omega

omit [DecidableEq Block] in
theorem length_dropLast : walk.postorder.dropLast.length = walk.order cfg.entry := by
  rw [List.length_dropLast, ← order_entry numbered tree]
  rfl

omit [DecidableEq Block] in
theorem dropLast_numbered {i : Nat} (here : walk.postorder.dropLast[i]? = some b) :
    walk.order b = i ∧ b ≠ cfg.entry := by
  have bound := (List.getElem?_eq_some_iff.1 here).1
  rw [length_dropLast numbered tree] at bound
  have inAll : walk.postorder[i]? = some b := by
    rw [List.dropLast_eq_take, List.getElem?_take] at here
    split at here
    next => exact here
    next => cases here
  have isOrder := numbered.order inAll
  refine ⟨isOrder, ?_⟩
  rintro rfl
  omega

omit [DecidableEq Block] in
theorem mem_dropLast (other : b ≠ cfg.entry) : b ∈ walk.postorder.dropLast := by
  obtain ⟨i, here⟩ := List.getElem?_of_mem (numbered.all b)
  have bound := (List.getElem?_eq_some_iff.1 here).1
  have count := order_entry numbered tree
  have apart : walk.order b ≠ walk.order cfg.entry := fun same => other (tree.injective same)
  rw [numbered.order here] at apart
  refine List.mem_of_getElem? (i := i) ?_
  rw [List.dropLast_eq_take, List.getElem?_take, if_pos (by omega)]
  exact here

omit numbered in
theorem held_first (root : parent cfg.entry = cfg.entry) :
    Held cfg walk.order parent (walk.order cfg.entry)
      (Pmap.put [] cfg.entry (some cfg.entry)) := by
  have find (b : Block) : Graph.find (Pmap.put [] cfg.entry (some cfg.entry)) b =
      if cfg.entry = b then some cfg.entry else none :=
    find_put [] cfg.entry (some cfg.entry) b
  have isParent : guess parent (Pmap.put [] cfg.entry (some cfg.entry)) = parent := by
    funext b
    rw [guess, find]
    split
    next same =>
      rw [← same, root]
      rfl
    next => rfl
  refine ⟨?_, ?_, ?_, fun b last => ?_, Or.inr fun b lower => ?_⟩
  · rw [find, if_pos rfl]
  · rw [isParent]
    exact tree.guesses
  · rw [isParent]
    exact tree.nested _
  · have same : cfg.entry = b := tree.injective (Nat.le_antisymm last (tree.entry_order b))
    rw [find, if_pos same]
    rfl
  · rw [find, if_neg]
    rintro rfl
    exact absurd lower (Nat.lt_irrefl _)

end

theorem Held.restart (held : Held cfg order parent 0 graph) (bound : Nat) :
    Held cfg order parent bound graph where
  entry := held.entry
  guesses := held.guesses
  nested l r _ := held.nested l r ⟨fun _ => Nat.zero_le _, fun _ => Nat.zero_le _⟩
  known b _ := held.known b (Nat.zero_le _)
  fresh := Or.inl fun b => held.known b (Nat.zero_le _)

structure Settled (cfg : Cfg Block) (walk : Walk Block) (parent : Block → Block)
    (graph : Graph Block) : Prop where
  held : Held cfg walk.order parent 0 graph
  closed : ∀ b, b ≠ cfg.entry → ∀ p, Edge cfg p b →
    Above cfg.entry (guess parent graph) p (guess parent graph b)

section

variable [Fintype Block]

def rank (order : Block → Nat) (parent : Block → Block) (graph : Graph Block) : Nat :=
  ∑ b, order (guess parent graph b)

theorem rank_le (tree : SpanningTree (Edge cfg) cfg.entry order parent) (graph : Graph Block) :
    rank order parent graph ≤ Fintype.card Block * order cfg.entry :=
  Finset.sum_le_card_nsmul Finset.univ _ _ fun b _ => tree.entry_order (guess parent graph b)

variable {graph : Graph Block}

theorem Advanced.rank_lt {bound : Nat} {graph' : Graph Block}
    (advanced : Advanced cfg order parent bound blocks graph false graph' true)
    (all : ∀ b, (graph.find b).isSome) : rank order parent graph < rank order parent graph' := by
  obtain ⟨b, higher⟩ := advanced.loud all rfl rfl
  exact Finset.sum_lt_sum (fun c _ => advanced.rises c) ⟨b, Finset.mem_univ b, higher⟩

variable {walk : Walk Block} {inner : Nat} (agrees : Agrees cfg) (numbered : Numbered cfg walk)
  (tree : SpanningTree (Edge cfg) cfg.entry walk.order parent)
  (enough : 3 * walk.order cfg.entry < inner)
include agrees numbered tree enough

omit [Fintype Block] in
theorem pass_advanced (held : Held cfg walk.order parent (walk.order cfg.entry) graph) :
    ∃ graph' changed,
      considerBlocks cfg walk.order inner walk.postorder.dropLast.reverse graph false =
          some (graph', changed) ∧
        Advanced cfg walk.order parent 0 walk.postorder.dropLast.reverse graph false graph'
          changed := by
  rw [← length_dropLast numbered tree] at held
  exact considerBlocks_advanced agrees tree enough (dropLast_numbered numbered tree) held false

omit [Fintype Block] agrees enough in
theorem Advanced.settled {graph' : Graph Block}
    (advanced : Advanced cfg walk.order parent 0 walk.postorder.dropLast.reverse graph false graph'
      false) : Settled cfg walk parent graph' where
  held := advanced.held
  closed b other := advanced.closed rfl b (List.mem_reverse.2 (mem_dropLast numbered tree other))

theorem settles_known (fuel : Nat) (held : Held cfg walk.order parent 0 graph)
    (room : Fintype.card Block * walk.order cfg.entry < fuel + rank walk.order parent graph) :
    ∃ graph', considerUntilSettled cfg walk inner fuel graph = some graph' ∧
      Settled cfg walk parent graph' := by
  induction fuel generalizing graph with
  | zero =>
    have most := rank_le tree graph
    omega
  | succ fuel ih =>
    obtain ⟨graph₁, changed, result, advanced⟩ :=
      pass_advanced agrees numbered tree enough (held.restart (walk.order cfg.entry))
    rw [considerUntilSettled, result]
    cases changed with
    | false => exact ⟨graph₁, rfl, advanced.settled numbered tree⟩
    | true =>
      have higher := advanced.rank_lt fun b => held.known b (Nat.zero_le _)
      exact ih advanced.held (by omega)

theorem settles (fuel : Nat) (held : Held cfg walk.order parent (walk.order cfg.entry) graph)
    (room : Fintype.card Block * walk.order cfg.entry < fuel) :
    ∃ graph', considerUntilSettled cfg walk inner (fuel + 1) graph = some graph' ∧
      Settled cfg walk parent graph' := by
  obtain ⟨graph₁, changed, result, advanced⟩ := pass_advanced agrees numbered tree enough held
  rw [considerUntilSettled, result]
  cases changed with
  | false => exact ⟨graph₁, rfl, advanced.settled numbered tree⟩
  | true => exact settles_known agrees numbered tree enough fuel advanced.held (by omega)

end

/-! ## The dominance graph -/

/-- The entry is mapped to itself and every other block to its only immediate
dominator. -/
structure Exact (cfg : Cfg Block) (graph : Graph Block) : Prop where
  entry : graph.find cfg.entry = some cfg.entry
  idom : ∀ b, b ≠ cfg.entry → ∃ d, graph.find b = some d ∧
    ImmediateDominator (Edge cfg) cfg.entry d b ∧
      ∀ d', ImmediateDominator (Edge cfg) cfg.entry d' b → d' = d

theorem Settled.exact {walk : Walk Block}
    (tree : SpanningTree (Edge cfg) cfg.entry walk.order parent)
    (settled : Settled cfg walk parent graph) : Exact cfg graph where
  entry := settled.held.entry
  idom b other := by
    obtain ⟨d, found⟩ := Option.isSome_iff_exists.1 (settled.held.known b (Nat.zero_le _))
    have exact := settled.held.guesses.exact tree settled.closed other
    rw [guess_of_find found] at exact
    exact ⟨d, found, exact, fun d' another => tree.immediateDominator_unique another exact⟩

/-- The dominance graph of a control flow graph all of whose blocks are reachable. -/
theorem calculateDominanceGraph_exact [Fintype Block] (agrees : Agrees cfg) (rooted : Rooted cfg) :
    ∃ enough, ∀ fuel ≥ enough, ∀ order, ∃ walk graph,
      walkCfgGraph cfg fuel order = some walk ∧
        calculateDominanceGraph cfg fuel walk = some graph ∧ Exact cfg graph := by
  refine ⟨Fintype.card Block * Fintype.card Block + 3 * Fintype.card Block + 2,
    fun fuel large order => ?_⟩
  have reaches : Fintype.card Block < fuel := by omega
  obtain ⟨walk, walked, numbered⟩ := walkCfgGraph_numbered rooted reaches order
  obtain ⟨parent, root, tree⟩ := numbered.tree
  have count : walk.order cfg.entry < Fintype.card Block := by
    have most := numbered.nodup.length_le_card
    have last := order_entry numbered tree
    omega
  have product : Fintype.card Block * walk.order cfg.entry ≤
      Fintype.card Block * Fintype.card Block :=
    Nat.mul_le_mul_left _ (Nat.le_of_lt count)
  have climbs : 3 * walk.order cfg.entry < fuel := by omega
  obtain ⟨graph, result, settled⟩ :=
    settles agrees numbered tree climbs (fuel - 1) (held_first tree root) (by omega)
  refine ⟨walk, graph, walked, ?_, settled.exact tree⟩
  have isSucc : fuel - 1 + 1 = fuel := by omega
  rwa [isSucc] at result

/-- Two blocks lead to each other; the entry leads to both, and both to the last
block. -/
def irreducible : Cfg (Fin 4) where
  entry := 0
  nexts
    | 0 => [1, 2]
    | 1 => [2, 3]
    | 2 => [1, 3]
    | 3 => []
  prevs
    | 0 => []
    | 1 => [0, 2]
    | 2 => [0, 1]
    | 3 => [1, 2]

theorem irreducible_rooted : Rooted irreducible := by
  have start : Path (Edge irreducible) 0 0 [0] := .entry
  have left : Path (Edge irreducible) 0 1 [1, 0] := start.step (.head _)
  have right : Path (Edge irreducible) 0 2 [2, 0] := start.step (.tail _ (.head _))
  intro b
  match b with
  | 0 => exact ⟨_, start⟩
  | 1 => exact ⟨_, left⟩
  | 2 => exact ⟨_, right⟩
  | 3 => exact ⟨_, left.step (.tail _ (.head _))⟩

/-- A loop with two entries. -/
theorem irreducible_exact :
    ∃ enough, ∀ fuel ≥ enough, ∀ order, ∃ walk graph,
      walkCfgGraph irreducible fuel order = some walk ∧
        calculateDominanceGraph irreducible fuel walk = some graph ∧ Exact irreducible graph := by
  have agrees : Agrees irreducible := by
    unfold Agrees
    decide
  exact calculateDominanceGraph_exact agrees irreducible_rooted

end AckFormal.Mcg.ImmediateDominators
