import Mathlib.Data.List.Basic
import Mathlib.Logic.Function.Iterate

/-!
# Chains of a function

Following `f` from an element gives its chain. A list of elements can be the first part of
a chain; a function that names one element for a whole chain, an element of that chain, is
idempotent.
-/

namespace AckFormal.Lib.Chains

variable {α : Type*} {f g : α → α}

def Leads (f : α → α) (a b : α) : Prop := ∃ steps, f^[steps] a = b

theorem Leads.refl (a : α) : Leads f a a := ⟨0, rfl⟩

theorem Leads.step {a b : α} (leads : Leads f (f a) b) : Leads f a b := by
  obtain ⟨steps, reached⟩ := leads
  exact ⟨steps + 1, reached⟩

theorem Leads.next {a b : α} (leads : Leads f a b) : Leads f a (f b) := by
  obtain ⟨steps, reached⟩ := leads
  exact ⟨steps + 1, by rw [Function.iterate_succ_apply', reached]⟩

variable {a b first last : α} {members : α → Prop} {path : List α}

theorem Leads.trans {c : α} (first : Leads f a b) (second : Leads f b c) : Leads f a c := by
  obtain ⟨steps, reached⟩ := first
  obtain ⟨more, reached'⟩ := second
  exact ⟨more + steps, by rw [Function.iterate_add_apply, reached, reached']⟩

theorem Leads.member (closed : ∀ a, members a → members (f a)) (member : members a)
    (leads : Leads f a b) : members b := by
  obtain ⟨steps, reached⟩ := leads
  induction steps generalizing a with
  | zero => exact reached ▸ member
  | succ steps ih => exact ih (closed a member) reached

theorem Leads.agree {β : Type*} {value : α → β} (closed : ∀ a, members a → members (f a))
    (steady : ∀ a, members a → value (f a) = value a) (member : members a) (leads : Leads f a b) :
    value b = value a := by
  obtain ⟨steps, reached⟩ := leads
  induction steps generalizing a with
  | zero => exact congrArg value reached.symm
  | succ steps ih => exact (ih (closed a member) reached).trans (steady a member)

/-- A function that names one element for a whole chain, and one of that chain. -/
structure Names (f : α → α) (g : α → α) (members : α → Prop) : Prop where
  closed : ∀ a, members a → members (f a)
  steady : ∀ a, members a → g (f a) = g a
  leads : ∀ a, members a → Leads f a (g a)

/-- The list is the part of the chain from the first element up to, not with, the last one. -/
def Chain (f : α → α) : α → List α → α → Prop
  | first, [], last => first = last
  | first, a :: rest, last => a = first ∧ Chain f (f first) rest last

theorem Chain.leads (chain : Chain f first path last) : Leads f first last := by
  induction path generalizing first with
  | nil => exact chain ▸ Leads.refl first
  | cons a rest ih => exact (ih chain.2).step

/-- Each element of the list leads to the last one, and its next one is in the list or is
the last one. -/
theorem Chain.mem (chain : Chain f first path last) (member : a ∈ path) :
    Leads f a last ∧ (f a ∈ path ∨ f a = last) := by
  induction path generalizing first with
  | nil => cases member
  | cons b rest ih =>
    obtain ⟨rfl, tail⟩ := chain
    cases member with
    | head =>
      refine ⟨tail.leads.step, ?_⟩
      cases rest with
      | nil => exact .inr tail
      | cons c rest => exact .inl (tail.1 ▸ List.mem_cons_of_mem _ List.mem_cons_self)
    | tail _ member =>
      obtain ⟨leads, next⟩ := ih tail member
      exact ⟨leads, next.imp_left (List.mem_cons_of_mem _)⟩

theorem Chain.congr (same : ∀ a ∈ path, g a = f a) (chain : Chain f first path last) :
    Chain g first path last := by
  induction path generalizing first with
  | nil => exact chain
  | cons a rest ih =>
    obtain ⟨rfl, tail⟩ := chain
    refine ⟨rfl, ?_⟩
    rw [same a List.mem_cons_self]
    exact ih (fun b member => same b (List.mem_cons_of_mem a member)) tail

end AckFormal.Lib.Chains
