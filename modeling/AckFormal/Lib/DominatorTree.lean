import AckFormal.Lib.Dominators
import Mathlib.Logic.Function.Basic

/-!
# Approximating immediate dominators

Each node has a guess, an ancestor that is not below its immediate dominator.  A turn
makes the lowest node above all predecessors the guess of a node.  Guesses only rise.
While the nodes have their turns in order, the guesses of those that have had it, and of
those that have not, are nested.
-/

namespace AckFormal.Lib.Dominators

open Function (update update_of_ne update_self)

variable {α : Type*} {edge : α → α → Prop} {entry : α} {order : α → Nat} {parent : α → α}

def Ancestral (entry : α) (parent idom : α → α) : Prop :=
  ∀ b, b ≠ entry → Above entry parent (parent b) (idom b)

/-- An ancestor below the guess is not above some predecessor, or the guess of another
node below it passes it. -/
def Justified (edge : α → α → Prop) (entry : α) (order : α → Nat) (parent idom : α → α)
    (b k : α) : Prop :=
  ∃ p, edge p b ∧ (¬ Above entry parent p k ∨
    ∃ l, l ≠ b ∧ l ≠ entry ∧ Above entry parent p l ∧ order l < order k ∧
      order k < order (idom l))

structure Guesses (edge : α → α → Prop) (entry : α) (order : α → Nat) (parent idom : α → α) :
    Prop where
  ancestral : Ancestral entry parent idom
  justified : ∀ b, b ≠ entry → ∀ k, Above entry parent b k → order b < order k →
    order k < order (idom b) → Justified edge entry order parent idom b k
  dominators : ∀ b, b ≠ entry → ∀ d, d ≠ b → Dominates edge entry d b → order (idom b) ≤ order d

/-- The guess of a node below the guess of `r` is not above that guess. -/
def NestedAt (entry : α) (order : α → Nat) (parent idom : α → α) (l r : α) : Prop :=
  l ≠ entry → r ≠ entry → Above entry parent r l → order l < order (idom r) →
    order (idom l) ≤ order (idom r)

def Nested (entry : α) (order : α → Nat) (parent idom : α → α) (bound : Nat) : Prop :=
  ∀ l r, (bound ≤ order l ↔ bound ≤ order r) → NestedAt entry order parent idom l r

structure Meet (edge : α → α → Prop) (entry : α) (order : α → Nat) (idom : α → α) (b x : α) :
    Prop where
  common : ∀ p, edge p b → Above entry idom p x
  lowest : ∀ y, (∀ p, edge p b → Above entry idom p y) → order x ≤ order y

variable {idom : α → α} {b p x l : α}

/-! ## Climbing along the guesses -/

theorem Ancestral.above (ancestral : Ancestral entry parent idom) (above : Above entry idom b x) :
    Above entry parent b x := by
  refine above.climb (motive := fun b => Above entry parent b x) (Above.refl x) ?_
  intro b other _ ih
  exact (Above.up other (ancestral b other)).trans ih

section

variable (tree : SpanningTree edge entry order parent)
include tree

variable (ancestral : Ancestral entry parent idom)
include ancestral

theorem Ancestral.rises : Rises entry order idom := by
  intro b other
  exact Nat.lt_of_lt_of_le (tree.rises b other) ((ancestral b other).order_le tree.rises)

theorem Ancestral.crossing
    (climb : Above entry idom p x) (above : Above entry parent p l) (lower : order l < order x) :
    ∃ r, r ≠ entry ∧ Above entry idom p r ∧ Above entry parent r l ∧
      order l < order (idom r) ∧ Above entry idom (idom r) x := by
  revert above
  refine climb.climb (motive := fun p => Above entry parent p l → ∃ r, r ≠ entry ∧
    Above entry idom p r ∧ Above entry parent r l ∧ order l < order (idom r) ∧
      Above entry idom (idom r) x) ?_ ?_
  · intro above
    exact absurd lower (Nat.not_lt.2 (above.order_le tree.rises))
  · intro p other rest ih above
    by_cases passed : order l < order (idom p)
    · exact ⟨p, other, Above.refl p, above, passed, rest⟩
    · have first := Above.up other (ancestral p other)
      obtain ⟨r, isOther, toR, below, crosses, toX⟩ :=
        ih (first.of_order_le tree.rises tree.injective above (Nat.not_lt.1 passed))
      exact ⟨r, isOther, Above.up other toR, below, crosses, toX⟩

/-- Where guesses are nested, climbing passes no lower guess. -/
theorem Ancestral.idom_le (nested : ∀ r, Above entry idom p r → Above entry parent r l →
      NestedAt entry order parent idom l r)
    (climb : Above entry idom p x) (above : Above entry parent p l) (other : l ≠ entry)
    (lower : order l < order x) : order (idom l) ≤ order x := by
  obtain ⟨r, isOther, toR, below, crosses, toX⟩ :=
    ancestral.crossing tree climb above lower
  have inner := nested r toR below other isOther below crosses
  exact Nat.le_trans inner (toX.order_le (ancestral.rises tree))

end

/-! ## A turn -/

structure Turn (edge : α → α → Prop) (entry : α) (order : α → Nat) (parent idom : α → α)
    (b x : α) : Prop where
  tree : SpanningTree edge entry order parent
  guesses : Guesses edge entry order parent idom
  nested : Nested entry order parent idom (order b + 1)
  other : b ≠ entry
  meet : Meet edge entry order idom b x

namespace Turn

variable (turn : Turn edge entry order parent idom b x)
include turn

theorem climb : Above entry idom (parent b) x :=
  turn.meet.common (parent b) (turn.tree.next b turn.other)

theorem above : Above entry parent (parent b) x :=
  turn.guesses.ancestral.above turn.climb

theorem order_lt : order b < order x :=
  Nat.lt_of_lt_of_le (turn.tree.rises b turn.other) (turn.above.order_le turn.tree.rises)

theorem idom_le_upper (climb : Above entry idom p x) (had : order b < order p)
    (above : Above entry parent p l) (other : l ≠ entry) (lower : order l < order x) :
    order (idom l) ≤ order x := by
  refine turn.guesses.ancestral.idom_le turn.tree (fun r toR below => ?_) climb above other lower
  have fromP := toR.order_le (turn.guesses.ancestral.rises turn.tree)
  have toL := above.order_le turn.tree.rises
  exact turn.nested l r ⟨fun _ => by omega, fun _ => by omega⟩

theorem idom_le_lower (climb : Above entry idom p x) (above : Above entry parent p l)
    (notYet : order l < order b) (other : l ≠ entry) : order (idom l) ≤ order x := by
  have lower : order l < order x := Nat.lt_trans notYet turn.order_lt
  refine turn.guesses.ancestral.idom_le turn.tree (fun r toR below => ?_) climb above other lower
  have toL := below.order_le turn.tree.rises
  exact turn.nested l r ⟨fun _ => by omega, fun _ => by omega⟩

theorem rises : order (idom b) ≤ order x := by
  by_contra fallen
  rw [Nat.not_le] at fallen
  have aboveB : Above entry parent b x := Above.up turn.other turn.above
  obtain ⟨p, next, notAbove | ⟨l, differs, other, above, lower, passes⟩⟩ :=
    turn.guesses.justified b turn.other x aboveB turn.order_lt fallen
  · exact notAbove (turn.guesses.ancestral.above (turn.meet.common p next))
  · have climb : Above entry idom p x := turn.meet.common p next
    have small : order (idom l) ≤ order x := by
      obtain notYet | had := Nat.lt_or_gt_of_ne fun same => differs (turn.tree.injective same)
      · exact turn.idom_le_lower climb above notYet other
      · obtain upper | below := turn.tree.back p b next
        · exact turn.idom_le_upper climb upper above other lower
        · -- the path in the tree to `p` leads through `b`
          have toL : Above entry parent b l :=
            below.of_order_le turn.tree.rises turn.tree.injective above (Nat.le_of_lt had)
          have fromParent : Above entry parent (parent b) l := (toL.of_ne differs.symm).2
          exact turn.idom_le_upper turn.climb (turn.tree.rises b turn.other) fromParent other lower
    exact absurd passes (Nat.not_lt.2 small)

/-- What is below the new guess and not below the old one is not above all predecessors. -/
theorem justified_new {k : α} (lower : order k < order x) (notBelow : order (idom b) ≤ order k) :
    Justified edge entry order parent idom b k := by
  obtain ⟨p, next, notAbove⟩ : ∃ p, edge p b ∧ ¬ Above entry idom p k := by
    by_contra absent
    have common (p : α) (next : edge p b) : Above entry idom p k := by
      by_contra notAbove
      exact absent ⟨p, next, notAbove⟩
    exact absurd lower (Nat.not_lt.2 (turn.meet.lowest k common))
  refine ⟨p, next, ?_⟩
  by_cases above : Above entry parent p k
  case neg => exact Or.inl above
  obtain ⟨r, other, toR, toK, passes, -⟩ :=
    turn.guesses.ancestral.crossing turn.tree (turn.meet.common p next) above lower
  have differs : r ≠ k := by
    rintro rfl
    exact notAbove toR
  refine Or.inr ⟨r, ?_, other, turn.guesses.ancestral.above toR,
    toK.order_lt turn.tree.rises turn.tree.injective differs, passes⟩
  rintro rfl
  exact absurd passes (Nat.not_lt.2 notBelow)

theorem le_dominator {d : α} (differs : d ≠ b) (dominates : Dominates edge entry d b) :
    order x ≤ order d := by
  by_contra passed
  rw [Nat.not_le] at passed
  refine absurd passed (Nat.not_lt.2 (turn.meet.lowest d fun p next => ?_))
  have dominatesP : Dominates edge entry d p := dominates.before next differs
  obtain ⟨r, other, toR, toD, passes, -⟩ :=
    turn.guesses.ancestral.crossing turn.tree (turn.meet.common p next)
      (turn.tree.above_of_dominates dominatesP) passed
  by_cases same : r = d
  · rwa [same] at toR
  · have dominatesR : Dominates edge entry d r :=
      turn.tree.dominates_ancestor dominatesP (turn.guesses.ancestral.above toR)
        (toD.order_lt turn.tree.rises turn.tree.injective same)
    have notPassed := turn.guesses.dominators r other d (fun h => same h.symm) dominatesR
    exact absurd passes (Nat.not_lt.2 notPassed)

variable [DecidableEq α]

theorem ancestral : Ancestral entry parent (update idom b x) := by
  intro c other
  by_cases same : c = b
  · rw [same, update_self]
    exact turn.above
  · rw [update_of_ne same]
    exact turn.guesses.ancestral c other

theorem le_update (c : α) : order (idom c) ≤ order (update idom b x c) := by
  by_cases same : c = b
  · rw [same, update_self]
    exact turn.rises
  · exact Nat.le_of_eq (by rw [update_of_ne same])

theorem nested_update : Nested entry order parent (update idom b x) (order b) := by
  intro l r phase other isOther above passes
  have below := above.order_le turn.tree.rises
  by_cases isR : r = b
  · subst isR
    rw [update_self] at passes ⊢
    by_cases isL : l = r
    · exact Nat.le_of_eq (by rw [isL, update_self])
    · rw [update_of_ne isL]
      have fromParent : Above entry parent (parent r) l := (above.of_ne fun same => isL same.symm).2
      exact turn.idom_le_upper turn.climb (turn.tree.rises r turn.other) fromParent other passes
  · have apart : order r ≠ order b := fun same => isR (turn.tree.injective same)
    by_cases isL : l = b
    · rw [isL] at phase below
      omega
    · have apart' : order l ≠ order b := fun same => isL (turn.tree.injective same)
      rw [update_of_ne isR] at passes ⊢
      rw [update_of_ne isL]
      exact turn.nested l r (by omega) other isOther above passes

theorem justified_update {c k : α} (justified : Justified edge entry order parent idom c k) :
    Justified edge entry order parent (update idom b x) c k := by
  obtain ⟨p, next, reason⟩ := justified
  refine ⟨p, next, reason.imp_right ?_⟩
  rintro ⟨l, differs, other, above, lower, passes⟩
  exact ⟨l, differs, other, above, lower, Nat.lt_of_lt_of_le passes (turn.le_update l)⟩

theorem guesses_update : Guesses edge entry order parent (update idom b x) where
  ancestral := turn.ancestral
  justified c other k above above' lower := by
    refine turn.justified_update ?_
    by_cases same : c = b
    · subst same
      rw [update_self] at lower
      by_cases below : order k < order (idom c)
      · exact turn.guesses.justified c other k above above' below
      · exact turn.justified_new lower (Nat.not_lt.1 below)
    · rw [update_of_ne same] at lower
      exact turn.guesses.justified c other k above above' lower
  dominators c other d differs dominates := by
    by_cases same : c = b
    · subst same
      rw [update_self]
      exact turn.le_dominator differs dominates
    · rw [update_of_ne same]
      exact turn.guesses.dominators c other d differs dominates

end Turn

/-! ## The first guesses and the last -/

theorem SpanningTree.guesses (tree : SpanningTree edge entry order parent) :
    Guesses edge entry order parent parent where
  ancestral b _ := Above.refl (parent b)
  justified b other k above lower below := by
    have differs : b ≠ k := by
      rintro rfl
      exact absurd lower (Nat.lt_irrefl _)
    exact absurd below (Nat.not_lt.2 ((above.of_ne differs).2.order_le tree.rises))
  dominators b other d differs dominates :=
    ((tree.above_of_dominates dominates).of_ne differs.symm).2.order_le tree.rises

theorem SpanningTree.nested (tree : SpanningTree edge entry order parent) (bound : Nat) :
    Nested entry order parent parent bound := by
  intro l r _ _ _ above lower
  by_cases same : r = l
  · exact Nat.le_of_eq (by rw [same])
  · exact absurd lower (Nat.not_lt.2 ((above.of_ne same).2.order_le tree.rises))

theorem mem_path (closed : ∀ b, b ≠ entry → ∀ p, edge p b → Above entry idom p (idom b))
    {path : List α} (toB : Path edge entry b path) (above : Above entry idom b x) : x ∈ path := by
  induction toB with
  | entry =>
    obtain rfl | ⟨other, -⟩ := above.cases
    · exact List.mem_singleton_self entry
    · exact absurd rfl other
  | @step p b path before next ih =>
    obtain rfl | ⟨other, rest⟩ := above.cases
    · exact List.mem_cons_self
    · exact List.mem_cons_of_mem b (ih ((closed b other p next).trans rest))

/-- Guesses that a round of turns would not change are the immediate dominators. -/
theorem Guesses.exact (tree : SpanningTree edge entry order parent)
    (guesses : Guesses edge entry order parent idom)
    (closed : ∀ b, b ≠ entry → ∀ p, edge p b → Above entry idom p (idom b)) (other : b ≠ entry) :
    ImmediateDominator edge entry (idom b) b := by
  have above := Above.up other (guesses.ancestral b other)
  have rises := guesses.ancestral.rises tree
  have differs : idom b ≠ b := by
    intro same
    have lower := rises b other
    rw [same] at lower
    exact absurd lower (Nat.lt_irrefl _)
  refine ⟨differs, fun path toB => ?_, fun d differs' dominates => ?_⟩
  · exact mem_path closed toB (Above.up other (Above.refl _))
  · have lower := guesses.dominators b other d differs' dominates
    by_cases same : d = idom b
    · rw [same]
      exact Dominates.refl (idom b)
    · have apart : order (idom b) ≠ order d := fun h => same (tree.injective h).symm
      exact tree.dominates_ancestor dominates above (Nat.lt_of_le_of_ne lower apart)

end AckFormal.Lib.Dominators
