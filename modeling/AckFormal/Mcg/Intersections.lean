import AckFormal.Lib.DominatorTree
import AckFormal.Mcg.DominanceGraph

/-!
# Intersections

Climbing two paths in turn, always on the one that is lower, ends at the lowest block
that is on both.
-/

namespace AckFormal.Mcg.Intersections

open AckFormal.Data Lib.Dominators DominanceGraph

variable {Block : Type} [DecidableEq Block]

def guess (parent : Block → Block) (graph : Graph Block) (b : Block) : Block :=
  (graph.find b).getD (parent b)

structure Climbable (entry : Block) (order : Block → Nat) (parent : Block → Block)
    (graph : Graph Block) : Prop where
  injective : Function.Injective order
  rises : Rises entry order (guess parent graph)
  most : ∀ b, order b ≤ order entry
  closed : ∀ {b p}, b ≠ entry → graph.find b = some p → (graph.find p).isSome

variable {entry : Block} {order : Block → Nat} {parent : Block → Block} {graph : Graph Block}

theorem guess_of_find {b p : Block} (found : graph.find b = some p) : guess parent graph b = p := by
  rw [guess, found, Option.getD_some]

namespace Climbable

variable (climbable : Climbable entry order parent graph)
include climbable

theorem ne_entry {p q : Block} (lower : order p < order q) : p ≠ entry := by
  rintro rfl
  exact absurd (climbable.most q) (Nat.not_le.2 lower)

variable {fuel : Nat}

/-- The first block on the way from `p` that is not below `q`. -/
theorem climb {p q : Block} (known : (graph.find p).isSome)
    (enough : order q < fuel + order p) (positive : 0 < fuel) :
    ∃ p', climb order graph fuel p q = some p' ∧ (graph.find p').isSome ∧
      Above entry (guess parent graph) p p' ∧ order q ≤ order p' ∧
      ∀ y, Above entry (guess parent graph) p y → order q ≤ order y →
        Above entry (guess parent graph) p' y := by
  induction fuel generalizing p with
  | zero => exact absurd positive (Nat.lt_irrefl 0)
  | succ fuel ih =>
    rw [DominanceGraph.climb]
    by_cases lower : order p < order q
    · rw [if_pos lower]
      have other := climbable.ne_entry lower
      obtain ⟨up, found⟩ := Option.isSome_iff_exists.1 known
      have isUp : guess parent graph p = up := guess_of_find found
      have higher := climbable.rises p other
      rw [isUp] at higher
      obtain ⟨p', result, known', above, reached, first⟩ :=
        ih (climbable.closed other found) (by omega) (by omega)
      rw [found]
      refine ⟨p', result, known', Above.up other (isUp ▸ above), reached, fun y toY upper => ?_⟩
      have differs : p ≠ y := by
        rintro rfl
        omega
      exact first y (isUp ▸ (toY.of_ne differs).2) upper
    · rw [if_neg lower]
      exact ⟨p, rfl, known, Above.refl p, Nat.not_lt.1 lower, fun y toY _ => toY⟩

/-- The lowest block that is above both. -/
theorem intersect {p1 p2 : Block} (known1 : (graph.find p1).isSome)
    (known2 : (graph.find p2).isSome)
    (enough : 3 * order entry < fuel + (order p1 + order p2)) :
    ∃ x, intersect order graph fuel p1 p2 = some x ∧ (graph.find x).isSome ∧
      Above entry (guess parent graph) p1 x ∧ Above entry (guess parent graph) p2 x ∧
      ∀ y, Above entry (guess parent graph) p1 y → Above entry (guess parent graph) p2 y →
        Above entry (guess parent graph) x y := by
  induction fuel generalizing p1 p2 with
  | zero =>
    have most1 := climbable.most p1
    have most2 := climbable.most p2
    omega
  | succ fuel ih =>
    rw [DominanceGraph.intersect]
    by_cases same : p1 = p2
    · rw [if_pos same, same]
      exact ⟨p2, rfl, known2, Above.refl p2, Above.refl p2, fun y _ toY => toY⟩
    · rw [if_neg same]
      have apart : order p1 ≠ order p2 := fun h => same (climbable.injective h)
      have most1 := climbable.most p1
      have most2 := climbable.most p2
      obtain ⟨p1', result1, known1', above1, reached1, first1⟩ :=
        @climb _ _ _ _ _ _ climbable fuel p1 p2 known1 (by omega) (by omega)
      have most1' := climbable.most p1'
      obtain ⟨p2', result2, known2', above2, reached2, first2⟩ :=
        @climb _ _ _ _ _ _ climbable fuel p2 p1' known2 (by omega) (by omega)
      have up1 := above1.order_le climbable.rises
      obtain ⟨x, result, known, aboveX1, aboveX2, lowest⟩ := ih known1' known2' (by omega)
      refine ⟨x, ?_, known, above1.trans aboveX1, above2.trans aboveX2, fun y toY1 toY2 => ?_⟩
      · rw [result1]
        dsimp only
        rw [result2]
        exact result
      · have toY1' := first1 y toY1 (toY2.order_le climbable.rises)
        exact lowest y toY1' (first2 y toY2 (toY1'.order_le climbable.rises))

/-- The lowest block above the known blocks among `seen`, if there is one. -/
def IsLowest (entry : Block) (parent : Block → Block) (graph : Graph Block) (seen : List Block) :
    Option Block → Prop
  | none => ∀ p ∈ seen, graph.find p = none
  | some x => (graph.find x).isSome ∧
      (∀ p ∈ seen, (graph.find p).isSome → Above entry (guess parent graph) p x) ∧
      ∀ y, (∀ p ∈ seen, (graph.find p).isSome → Above entry (guess parent graph) p y) →
        Above entry (guess parent graph) x y

/-- One more predecessor is taken into account. -/
theorem considerPrev (enough : 3 * order entry < fuel) {seen : List Block} (p : Block)
    {idom : Option Block} (isLowest : IsLowest entry parent graph seen idom) :
    ∃ idom', considerPrev order graph fuel p idom = some idom' ∧
      IsLowest entry parent graph (seen ++ [p]) idom' := by
  unfold DominanceGraph.considerPrev
  cases found : graph.find p with
  | none =>
    refine ⟨idom, rfl, ?_⟩
    cases idom with
    | none => exact List.forall_mem_append.2 ⟨isLowest, List.forall_mem_singleton.2 found⟩
    | some x =>
      obtain ⟨known, common, lowest⟩ := isLowest
      refine ⟨known, List.forall_mem_append.2 ⟨common, List.forall_mem_singleton.2 ?_⟩,
        fun y toY => lowest y (List.forall_mem_append.1 toY).1⟩
      rw [found]
      exact nofun
  | some up =>
    have known : (graph.find p).isSome := by rw [found]; rfl
    cases idom with
    | none =>
      refine ⟨some p, rfl, known, ?_, fun y toY => toY p (by simp) known⟩
      refine List.forall_mem_append.2 ⟨fun q member known => ?_, ?_⟩
      · rw [isLowest q member] at known
        cases known
      · exact List.forall_mem_singleton.2 fun _ => Above.refl p
    | some x =>
      obtain ⟨knownX, common, lowest⟩ := isLowest
      obtain ⟨x', result, known', fromP, fromX, lowest'⟩ :=
        @intersect _ _ _ _ _ _ climbable fuel p x known knownX (by omega)
      refine ⟨some x', congrArg (Option.map some) result, known', ?_, fun y toY => ?_⟩
      · refine List.forall_mem_append.2 ⟨fun q member known => ?_, ?_⟩
        · exact (common q member known).trans fromX
        · exact List.forall_mem_singleton.2 fun _ => fromP
      · obtain ⟨others, here⟩ := List.forall_mem_append.1 toY
        exact lowest' y (here p (List.mem_singleton_self p) known) (lowest y others)

theorem newIdom (enough : 3 * order entry < fuel) (prevs : List Block)
    {seen : List Block} {idom : Option Block} (isLowest : IsLowest entry parent graph seen idom) :
    ∃ idom', newIdom order graph fuel prevs idom = some idom' ∧
      IsLowest entry parent graph (seen ++ prevs) idom' := by
  induction prevs generalizing seen idom with
  | nil => exact ⟨idom, rfl, by rwa [List.append_nil]⟩
  | cons p prevs ih =>
    obtain ⟨idom₁, result, isLowest₁⟩ := climbable.considerPrev enough p isLowest
    rw [DominanceGraph.newIdom, result, List.append_cons]
    exact ih isLowest₁

end Climbable

end AckFormal.Mcg.Intersections
