import Mathlib.Data.Set.Lattice
import Mathlib.Order.CompletePartialOrder

/-!
# Edits with disjoint footprints

A partial update of a store that reads and writes nothing outside a set of
locations, its footprint.  Edits whose footprints do not meet do not see each
other: whatever order they are made in, each leaves in its footprint what it would
have left there in the original store.
-/

namespace AckFormal.Lib

variable {σ ι β α : Type*} {view : σ → ι → β}

/-- `run` stays inside `foot` in every store that has the contents of `origin` there;
`view` is what a store has at a location. -/
structure Confined (view : σ → ι → β) (run : σ → Option σ) (foot : Set ι) (origin : σ) :
    Prop where
  frame : ∀ {store after : σ}, Set.EqOn (view store) (view origin) foot →
    run store = some after → ∀ {x : ι}, x ∉ foot → view after x = view store x
  inside : ∀ {store after : σ}, Set.EqOn (view store) (view origin) foot →
    run store = some after →
    ∃ alone, run origin = some alone ∧ Set.EqOn (view after) (view alone) foot

variable {run : α → σ → Option σ} {foot : α → Set ι} {origin : σ}

/-- Edits with disjoint footprints leave the rest of the store alone, and in the
footprint of each of them is what that edit alone puts there. -/
theorem foldlM_confined {edits : List α}
    (confined : ∀ edit ∈ edits, Confined view (run edit) (foot edit) origin)
    (apart : edits.Pairwise (fun a b => Disjoint (foot a) (foot b)))
    {store after : σ}
    (start : ∀ edit ∈ edits, Set.EqOn (view store) (view origin) (foot edit))
    (done : edits.foldlM (fun s edit => run edit s) store = some after) :
    (∀ x, (∀ edit ∈ edits, x ∉ foot edit) → view after x = view store x) ∧
      ∀ edit ∈ edits, ∃ alone, run edit origin = some alone ∧
        Set.EqOn (view after) (view alone) (foot edit) := by
  induction edits generalizing store with
  | nil =>
    cases done
    exact ⟨fun _ _ => rfl, by simp⟩
  | cons first rest ih =>
    obtain ⟨middle, ran, later⟩ := Option.bind_eq_some_iff.mp done
    obtain ⟨firstApart, restApart⟩ := List.pairwise_cons.mp apart
    have here := confined first List.mem_cons_self
    have atFirst := start first List.mem_cons_self
    have middleStart : ∀ edit ∈ rest, Set.EqOn (view middle) (view origin) (foot edit) := by
      intro edit member x inFoot
      have outside : x ∉ foot first :=
        fun inFirst => Set.disjoint_left.mp (firstApart edit member) inFirst inFoot
      rw [here.frame atFirst ran outside]
      exact start edit (List.mem_cons_of_mem _ member) inFoot
    obtain ⟨framed, settled⟩ := ih
      (fun edit member => confined edit (List.mem_cons_of_mem _ member)) restApart
      middleStart later
    constructor
    · intro x outside
      rw [framed x (fun edit member => outside edit (List.mem_cons_of_mem _ member))]
      exact here.frame atFirst ran (outside first List.mem_cons_self)
    · intro edit member
      rcases List.mem_cons.mp member with rfl | later
      · obtain ⟨alone, ranAlone, same⟩ := here.inside atFirst ran
        refine ⟨alone, ranAlone, ?_⟩
        intro x inFoot
        rw [framed x (fun other otherMember inOther =>
          Set.disjoint_left.mp (firstApart other otherMember) inFoot inOther)]
        exact same inFoot
      · exact settled edit later

end AckFormal.Lib
