import AckFormal.Data.Arrays
import AckFormal.Data.Pmap

/-!
# The dominance graph

`graph.c` numbers the blocks in postorder and then repeats, in reverse postorder, the
intersection of what is known about the predecessors of each block, until nothing
changes.
-/

namespace AckFormal.Mcg.DominanceGraph

open AckFormal.Data

structure Cfg (Block : Type) where
  entry : Block
  nexts : Block → List Block
  prevs : Block → List Block

variable {Block : Type} [DecidableEq Block] (cfg : Cfg Block)

/-! ## The walk -/

/-- `order` of the blocks, `cfg.preorder`, `cfg.postorder` and `pending`. -/
structure Walk (Block : Type) where
  order : Block → Nat
  preorder : List Block
  postorder : List Block
  pending : List Block

def Walk.enter (bb : Block) (walk : Walk Block) : Walk Block :=
  { walk with
    preorder := (Arrays.appendu walk.preorder bb).1
    pending := (Arrays.appendu walk.pending bb).1 }

def Walk.leave (bb : Block) (walk : Walk Block) : Walk Block :=
  { walk with
    pending := Arrays.remove walk.pending bb
    order := Function.update walk.order bb walk.postorder.length
    postorder := (Arrays.appendu walk.postorder bb).1 }

def walkNexts (visit : Block → Walk Block → Option (Walk Block)) :
    List Block → Walk Block → Option (Walk Block)
  | [], walk => some walk
  | bb :: nexts, walk =>
    match visit bb walk with
    | none => none
    | some walk => walkNexts visit nexts walk

def recursivelyWalkCfgGraph : Nat → Block → Walk Block → Option (Walk Block)
  | 0, _, _ => none
  | fuel + 1, bb, walk =>
    if bb ∈ walk.postorder ∨ bb ∈ walk.pending then some walk
    else
      match walkNexts (recursivelyWalkCfgGraph fuel) (cfg.nexts bb) (walk.enter bb) with
      | none => none
      | some walk => some (walk.leave bb)

/-- `walk_cfg_graph`; `order` is what earlier walks have left in the blocks. -/
def walkCfgGraph (fuel : Nat) (order : Block → Nat) : Option (Walk Block) :=
  recursivelyWalkCfgGraph cfg fuel cfg.entry ⟨order, [], [], []⟩

/-! ## Immediate dominators -/

/-- `dominance.graph`; the right element may be null. -/
abbrev Graph (Block : Type) := List (Block × Option Block)

def Graph.find (graph : Graph Block) (b : Block) : Option Block :=
  (Pmap.findleft graph b).join

section

variable (order : Block → Nat) (graph : Graph Block)

def climb : Nat → Block → Block → Option Block
  | 0, _, _ => none
  | fuel + 1, p, q =>
    if order p < order q then
      match graph.find p with
      | none => none
      | some p => climb fuel p q
    else some p

def intersect : Nat → Block → Block → Option Block
  | 0, _, _ => none
  | fuel + 1, p1, p2 =>
    if p1 = p2 then some p1
    else
      match climb order graph fuel p1 p2 with
      | none => none
      | some p1 =>
        match climb order graph fuel p2 p1 with
        | none => none
        | some p2 => intersect fuel p1 p2

def considerPrev (fuel : Nat) (p : Block) (idom : Option Block) : Option (Option Block) :=
  match graph.find p, idom with
  | none, idom => some idom
  | some _, none => some (some p)
  | some _, some idom => (intersect order graph fuel p idom).map some

def newIdom (fuel : Nat) : List Block → Option Block → Option (Option Block)
  | [], idom => some idom
  | p :: prevs, idom =>
    match considerPrev order graph fuel p idom with
    | none => none
    | some idom => newIdom fuel prevs idom

end

def considerBlock (order : Block → Nat) (fuel : Nat) (b : Block) (graph : Graph Block)
    (changed : Bool) : Option (Graph Block × Bool) :=
  match newIdom order graph fuel (cfg.prevs b) none with
  | none => none
  | some idom =>
    if graph.find b ≠ idom then some (Pmap.put graph b idom, true) else some (graph, changed)

def considerBlocks (order : Block → Nat) (fuel : Nat) :
    List Block → Graph Block → Bool → Option (Graph Block × Bool)
  | [], graph, changed => some (graph, changed)
  | b :: blocks, graph, changed =>
    match considerBlock cfg order fuel b graph changed with
    | none => none
    | some (graph, changed) => considerBlocks order fuel blocks graph changed

/-- `do ... while (changed)`; the blocks are `cfg.postorder` from the last but one
down. -/
def considerUntilSettled (walk : Walk Block) (inner : Nat) : Nat → Graph Block →
    Option (Graph Block)
  | 0, _ => none
  | fuel + 1, graph =>
    match considerBlocks cfg walk.order inner walk.postorder.dropLast.reverse graph false with
    | none => none
    | some (graph, changed) =>
      if changed then considerUntilSettled walk inner fuel graph else some graph

def calculateDominanceGraph (fuel : Nat) (walk : Walk Block) : Option (Graph Block) :=
  considerUntilSettled cfg walk fuel fuel (Pmap.put [] cfg.entry (some cfg.entry))

end AckFormal.Mcg.DominanceGraph
