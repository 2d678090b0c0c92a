import Mathlib.Logic.Relation

/-!
# Dominators and depth-first trees

A node dominates another if it is on every path to it from the entry.  In a spanning
tree whose numbering rises towards the entry, as the postorder of a depth-first search
does, dominators are ancestors.
-/

namespace AckFormal.Lib.Dominators

open Relation

variable {α : Type*} (edge : α → α → Prop) (entry : α)

/-- A path from the entry; the list has the last node first. -/
inductive Path : α → List α → Prop where
  | entry : Path entry [entry]
  | step {p b : α} {path : List α} (before : Path p path) (next : edge p b) : Path b (b :: path)

def Dominates (d b : α) : Prop :=
  ∀ path, Path edge entry b path → d ∈ path

/-- Another node that dominates `b`, and is dominated by all such nodes. -/
structure ImmediateDominator (d b : α) : Prop where
  other : d ≠ b
  dominates : Dominates edge entry d b
  closest : ∀ d', d' ≠ b → Dominates edge entry d' b → Dominates edge entry d' d

variable {edge entry}

theorem Dominates.refl (b : α) : Dominates edge entry b b := by
  intro path toB
  cases toB with
  | entry => exact List.mem_cons_self
  | step before next => exact List.mem_cons_self

theorem Dominates.before {d p b : α} (dominates : Dominates edge entry d b) (next : edge p b)
    (other : d ≠ b) : Dominates edge entry d p := by
  intro path before
  obtain same | member := List.mem_cons.1 (dominates (b :: path) (.step before next))
  · exact absurd same other
  · exact member

/-! ## Climbing -/

section

variable (entry) (f : α → α)

def Hop (b a : α) : Prop := b ≠ entry ∧ a = f b

/-- `Above b a`: climbing from `b` one comes to `a`. -/
def Above (b a : α) : Prop := ReflTransGen (Hop entry f) b a

end

variable {f : α → α} {a b c : α}

theorem Above.refl (b : α) : Above entry f b b := ReflTransGen.refl

theorem Above.trans (first : Above entry f b a) (second : Above entry f a c) :
    Above entry f b c :=
  ReflTransGen.trans first second

theorem Above.up (other : b ≠ entry) (rest : Above entry f (f b) a) : Above entry f b a :=
  ReflTransGen.head ⟨other, rfl⟩ rest

theorem Above.cases (above : Above entry f b a) : b = a ∨ b ≠ entry ∧ Above entry f (f b) a := by
  obtain same | ⟨c, ⟨other, rfl⟩, rest⟩ := ReflTransGen.cases_head above
  · exact Or.inl same
  · exact Or.inr ⟨other, rest⟩

theorem Above.of_ne (above : Above entry f b a) (differs : b ≠ a) :
    b ≠ entry ∧ Above entry f (f b) a :=
  above.cases.resolve_left differs

theorem Above.climb {motive : α → Prop} (above : Above entry f b a) (here : motive a)
    (up : ∀ b, b ≠ entry → Above entry f (f b) a → motive (f b) → motive b) : motive b := by
  induction above using ReflTransGen.head_induction_on with
  | refl => exact here
  | head hop rest ih =>
    obtain ⟨other, rfl⟩ := hop
    exact up _ other rest ih

theorem Above.total (first : Above entry f b a) (second : Above entry f b c) :
    Above entry f a c ∨ Above entry f c a :=
  ReflTransGen.total_of_right_unique (fun _ _ _ left right => left.2.trans right.2.symm)
    first second

def Rises (entry : α) (order : α → Nat) (f : α → α) : Prop :=
  ∀ b, b ≠ entry → order b < order (f b)

variable {order : α → Nat}

theorem Above.order_le (rises : Rises entry order f) (above : Above entry f b a) :
    order b ≤ order a := by
  refine above.climb (motive := fun b => order b ≤ order a) (Nat.le_refl _) ?_
  intro b other _ ih
  exact Nat.le_trans (Nat.le_of_lt (rises b other)) ih

theorem Above.of_order_le (rises : Rises entry order f) (injective : Function.Injective order)
    (first : Above entry f b a) (second : Above entry f b c) (lower : order a ≤ order c) :
    Above entry f a c := by
  obtain above | above := first.total second
  · exact above
  · have same : a = c := injective (Nat.le_antisymm lower (above.order_le rises))
    rw [same]
    exact Above.refl c

theorem Above.order_lt (rises : Rises entry order f) (injective : Function.Injective order)
    (above : Above entry f b a) (differs : b ≠ a) : order b < order a :=
  Nat.lt_of_le_of_ne (above.order_le rises) fun same => differs (injective same)

/-! ## Spanning trees -/

/-- Each edge that does not lead to a lower number leads to an ancestor. -/
structure SpanningTree (edge : α → α → Prop) (entry : α) (order : α → Nat) (parent : α → α) :
    Prop where
  injective : Function.Injective order
  next : ∀ b, b ≠ entry → edge (parent b) b
  rises : Rises entry order parent
  root : ∀ b, Above entry parent b entry
  back : ∀ p b, edge p b → order b < order p ∨ Above entry parent p b

namespace SpanningTree

variable {parent : α → α} (tree : SpanningTree edge entry order parent) {d p : α}
include tree

theorem exists_path (b : α) :
    ∃ path, Path edge entry b path ∧ ∀ x ∈ path, Above entry parent b x := by
  refine (tree.root b).climb
    (motive := fun b => ∃ path, Path edge entry b path ∧ ∀ x ∈ path, Above entry parent b x) ?_ ?_
  · refine ⟨[entry], .entry, fun x member => ?_⟩
    rw [List.mem_singleton.1 member]
    exact Above.refl entry
  · rintro b other _ ⟨path, toParent, above⟩
    refine ⟨b :: path, .step toParent (tree.next b other), fun x member => ?_⟩
    obtain rfl | member := List.mem_cons.1 member
    · exact Above.refl x
    · exact Above.up other (above x member)

theorem prolong (above : Above entry parent c b) {path : List α} (toB : Path edge entry b path) :
    ∃ path', Path edge entry c path' ∧ ∀ x ∈ path', x ∈ path ∨ order x < order b := by
  refine above.climb
    (motive := fun c => ∃ path', Path edge entry c path' ∧ ∀ x ∈ path', x ∈ path ∨ order x < order b)
    ⟨path, toB, fun x member => Or.inl member⟩ ?_
  rintro c other above ⟨path', toParent, known⟩
  refine ⟨c :: path', .step toParent (tree.next c other), fun x member => ?_⟩
  obtain rfl | member := List.mem_cons.1 member
  · exact Or.inr (Nat.lt_of_lt_of_le (tree.rises x other) (above.order_le tree.rises))
  · exact known x member

theorem above_of_dominates (dominates : Dominates edge entry d b) : Above entry parent b d := by
  obtain ⟨path, toB, above⟩ := tree.exists_path b
  exact above d (dominates path toB)

theorem dominates_ancestor (dominates : Dominates edge entry d c)
    (above : Above entry parent c b) (lower : order b < order d) : Dominates edge entry d b := by
  intro path toB
  obtain ⟨path', toC, known⟩ := tree.prolong above toB
  obtain member | below := known d (dominates path' toC)
  · exact member
  · exact absurd lower (Nat.lt_asymm below)

theorem dominates_antisymm (first : Dominates edge entry a b) (second : Dominates edge entry b a) :
    a = b := by
  have up := (tree.above_of_dominates first).order_le tree.rises
  have down := (tree.above_of_dominates second).order_le tree.rises
  exact tree.injective (Nat.le_antisymm down up)

theorem immediateDominator_unique (first : ImmediateDominator edge entry a b)
    (second : ImmediateDominator edge entry c b) : a = c :=
  tree.dominates_antisymm (second.closest a first.other first.dominates)
    (first.closest c second.other second.dominates)

theorem entry_order (b : α) : order b ≤ order entry := (tree.root b).order_le tree.rises

end SpanningTree

end AckFormal.Lib.Dominators
