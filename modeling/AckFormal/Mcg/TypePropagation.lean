import AckFormal.Lib.Settle
import AckFormal.Mcg.TypeInference
import Mathlib.Data.Fintype.Card

/-!
# Collecting nodes and propagating types

A node is visited once, and a change gives a type to a node that has none, so both
come to an end.
-/

namespace AckFormal.Mcg.TypePropagation

open AckFormal.Data Lib.Settle TypeInference

/-- The nodes that are referred to exist, so do the children that a rule with `?` takes,
and the blocks named by phis have nodes. -/
structure Formed (graph : Graph) : Prop where
  left : ∀ ir < graph.nextId, ∀ child ∈ (graph.node ir).left, child < graph.nextId
  right : ∀ ir < graph.nextId, ∀ child ∈ (graph.node ir).right, child < graph.nextId
  operands : ∀ ir < graph.nextId, ∀ operand ∈ (graph.node ir).phivalue,
    operand.2 < graph.nextId ∧ graph.irs operand.1 ≠ []
  roots : ∀ bb ∈ graph.preorder, ∀ ir ∈ graph.irs bb, ir < graph.nextId
  hasLeft : ∀ ir < graph.nextId, (irData (graph.node ir).opcode).lefttype = .any →
    (graph.node ir).left ≠ none
  hasRight : ∀ ir < graph.nextId, (irData (graph.node ir).opcode).righttype = .any →
    (graph.node ir).right ≠ none

variable {graph : Graph}

/-! ## Collecting -/

structure Listed (graph : Graph) (irs : List Nat) : Prop where
  nodup : irs.Nodup
  bound : ∀ ir ∈ irs, ir < graph.nextId

variable {irs irs' : List Nat} {ir fuel : Nat}

theorem Listed.length_le (listed : Listed graph irs) : irs.length ≤ graph.nextId := by
  have inRange : irs.Subperm (List.range graph.nextId) :=
    listed.nodup.subperm fun ir member => List.mem_range.2 (listed.bound ir member)
  simpa using inRange.length_le

theorem Listed.append (listed : Listed graph irs) (new : ir ∉ irs) (bound : ir < graph.nextId) :
    Listed graph (irs ++ [ir]) where
  nodup := listed.nodup.append (List.nodup_singleton ir) (by simpa using new)
  bound := List.forall_mem_append.2 ⟨listed.bound, List.forall_mem_singleton.2 bound⟩

structure Added (graph : Graph) (irs irs' : List Nat) : Prop where
  listed : Listed graph irs'
  kept : ∀ ir ∈ irs, ir ∈ irs'
  left : ∀ ir ∈ irs', ir ∉ irs → ∀ child ∈ (graph.node ir).left, child ∈ irs'
  right : ∀ ir ∈ irs', ir ∉ irs → ∀ child ∈ (graph.node ir).right, child ∈ irs'

theorem Added.nil (listed : Listed graph irs) : Added graph irs irs where
  listed := listed
  kept _ member := member
  left _ member new := absurd member new
  right _ member new := absurd member new

theorem Added.trans {irs'' : List Nat} (first : Added graph irs irs')
    (second : Added graph irs' irs'') : Added graph irs irs'' where
  listed := second.listed
  kept ir member := second.kept ir (first.kept ir member)
  left ir member new child isChild := by
    by_cases before : ir ∈ irs'
    · exact second.kept child (first.left ir before new child isChild)
    · exact second.left ir member before child isChild
  right ir member new child isChild := by
    by_cases before : ir ∈ irs'
    · exact second.kept child (first.right ir before new child isChild)
    · exact second.right ir member before child isChild

/-- A node that has been entered comes with its children too. -/
theorem Added.enter (added : Added graph (irs ++ [ir]) irs')
    (left : ∀ child ∈ (graph.node ir).left, child ∈ irs')
    (right : ∀ child ∈ (graph.node ir).right, child ∈ irs') : Added graph irs irs' where
  listed := added.listed
  kept x member := added.kept x (List.mem_append_left _ member)
  left x member new := by
    by_cases same : x = ir
    · rw [same]
      exact left
    · exact added.left x member (by simp [new, same])
  right x member new := by
    by_cases same : x = ir
    · rw [same]
      exact right
    · exact added.right x member (by simp [new, same])

theorem Added.length_le (added : Added graph irs irs') (listed : Listed graph irs) :
    irs.length ≤ irs'.length :=
  (listed.nodup.subperm added.kept).length_le

theorem addChild_added {child : Option Nat}
    (ih : ∀ fuel' < fuel, ∀ {child}, child < graph.nextId → 2 * graph.nextId < fuel' + 2 * irs.length →
      ∃ irs', addall graph fuel' child irs = .ok irs' ∧ Added graph irs irs' ∧ child ∈ irs')
    (listed : Listed graph irs) (bound : ∀ ir ∈ child, ir < graph.nextId)
    (enough : 2 * graph.nextId + 1 < fuel + 2 * irs.length) :
    ∃ irs', addChild graph fuel child irs = .ok irs' ∧ Added graph irs irs' ∧
      ∀ ir ∈ child, ir ∈ irs' := by
  have most := listed.length_le
  cases child with
  | none =>
    refine ⟨irs, ?_, .nil listed, nofun⟩
    cases fuel <;> rfl
  | some child =>
    cases fuel with
    | zero => omega
    | succ fuel =>
      obtain ⟨irs', result, added, member⟩ :=
        ih fuel (Nat.lt_succ_self fuel) (bound child rfl) (by omega)
      refine ⟨irs', result, added, ?_⟩
      rintro ir ⟨⟩
      exact member

/-- The nodes below a node are collected with it. -/
theorem addall_added (formed : Formed graph) (fuel : Nat) (listed : Listed graph irs)
    (bound : ir < graph.nextId) (enough : 2 * graph.nextId < fuel + 2 * irs.length) :
    ∃ irs', addall graph fuel ir irs = .ok irs' ∧ Added graph irs irs' ∧ ir ∈ irs' := by
  induction fuel using Nat.strong_induction_on generalizing ir irs with
  | _ fuel ih =>
    have most := listed.length_le
    cases fuel with
    | zero => omega
    | succ fuel =>
      rw [addall]
      by_cases known : ir ∈ irs
      · have same : Arrays.appendu irs ir = (irs, true) := if_pos known
        rw [same]
        exact ⟨irs, rfl, .nil listed, known⟩
      · have new : Arrays.appendu irs ir = (irs ++ [ir], false) := if_neg known
        rw [new]
        have entered := listed.append known bound
        obtain ⟨irs₁, result₁, added₁, left⟩ :=
          addChild_added (fun fuel' lower _ bound enough =>
            ih fuel' (Nat.lt_succ_of_lt lower) entered bound enough) entered
            (formed.left ir bound) (by rw [List.length_append, List.length_singleton]; omega)
        have longer := added₁.length_le entered
        rw [List.length_append, List.length_singleton] at longer
        obtain ⟨irs₂, result₂, added₂, right⟩ :=
          addChild_added (fun fuel' lower _ bound enough =>
            ih fuel' (Nat.lt_succ_of_lt lower) added₁.listed bound enough) added₁.listed
            (formed.right ir bound) (by omega)
        have added := added₁.trans added₂
        refine ⟨irs₂, ?_, added.enter (fun child isChild => added₂.kept child (left child isChild))
          right, added.kept ir (List.mem_append_right _ (List.mem_singleton_self ir))⟩
        simp only [result₁, result₂]
        rfl

theorem addRoots_added (formed : Formed graph) (enough : 2 * graph.nextId < fuel) {roots : List Nat}
    (listed : Listed graph irs) (bound : ∀ ir ∈ roots, ir < graph.nextId) :
    ∃ irs', addRoots graph fuel roots irs = .ok irs' ∧ Added graph irs irs' ∧
      ∀ ir ∈ roots, ir ∈ irs' := by
  induction roots generalizing irs with
  | nil => exact ⟨irs, rfl, .nil listed, nofun⟩
  | cons ir roots ih =>
    obtain ⟨here, others⟩ := List.forall_mem_cons.1 bound
    obtain ⟨irs₁, result₁, added₁, member⟩ := addall_added formed fuel listed here (by omega)
    obtain ⟨irs₂, result₂, added₂, members⟩ := ih added₁.listed others
    refine ⟨irs₂, ?_, added₁.trans added₂, List.forall_mem_cons.2 ⟨added₂.kept ir member, members⟩⟩
    rw [addRoots, result₁]
    exact result₂

structure Collected (graph : Graph) (irs : List Nat) : Prop where
  listed : Listed graph irs
  roots : ∀ bb ∈ graph.preorder, ∀ ir ∈ graph.irs bb, ir ∈ irs
  left : ∀ ir ∈ irs, ∀ child ∈ (graph.node ir).left, child ∈ irs
  right : ∀ ir ∈ irs, ∀ child ∈ (graph.node ir).right, child ∈ irs

theorem collectIrs_collected (formed : Formed graph) (enough : 2 * graph.nextId < fuel) :
    ∃ irs, collectIrs graph fuel = .ok irs ∧ Collected graph irs := by
  have bound (ir : Nat) (member : ir ∈ graph.preorder.flatMap graph.irs) : ir < graph.nextId := by
    obtain ⟨bb, isBlock, isRoot⟩ := List.mem_flatMap.1 member
    exact formed.roots bb isBlock ir isRoot
  obtain ⟨irs, result, added, roots⟩ :=
    addRoots_added formed enough ⟨List.nodup_nil, nofun⟩ bound
  exact ⟨irs, result, added.listed,
    fun bb isBlock ir isRoot => roots ir (List.mem_flatMap.2 ⟨bb, isBlock, isRoot⟩),
    fun ir member => added.left ir member List.not_mem_nil,
    fun ir member => added.right ir member List.not_mem_nil⟩

/-! ## Propagation -/

/-- Nodes keep having a type, and where a change is reported a node has got one. -/
structure Grown (graph : Graph) (types types' : Types) : Prop where
  kept : ∀ ir, types.type ir ≠ none → types'.type ir ≠ none
  fresh : types'.changed = true → types.changed = true ∨
    ∃ ir < graph.nextId, types.type ir = none ∧ types'.type ir ≠ none

theorem Grown.refl (types : Types) : Grown graph types types := ⟨fun _ => id, Or.inl⟩

theorem Grown.trans {types types' types'' : Types} (first : Grown graph types types')
    (second : Grown graph types' types'') : Grown graph types types'' where
  kept ir typed := second.kept ir (first.kept ir typed)
  fresh changed := by
    obtain before | ⟨ir, bound, untyped, typed⟩ := second.fresh changed
    · obtain earlier | ⟨ir, bound, untyped, typed⟩ := first.fresh before
      · exact Or.inl earlier
      · exact Or.inr ⟨ir, bound, untyped, second.kept ir typed⟩
    · refine Or.inr ⟨ir, bound, ?_, typed⟩
      by_contra before
      exact first.kept ir before untyped

variable {types : Types} {ir : Nat}

theorem type_set_self (types : Types) (ir : Nat) (type : Ty) :
    (types.set ir type).type ir = some type :=
  Function.update_self ir _ _

theorem type_set_of_ne {other : Nat} (differs : other ≠ ir) (type : Ty) :
    (types.set ir type).type other = types.type other :=
  Function.update_of_ne differs _ _

theorem set_set (types : Types) (ir : Nat) (first second : Ty) :
    (types.set ir first).set ir second = types.set ir second := by
  unfold Types.set
  rw [Function.update_idem]

theorem grown_set (bound : ir < graph.nextId) (untyped : types.type ir = none) (type : Ty) :
    Grown graph types (types.set ir type) where
  kept other typed := by
    have differs : other ≠ ir := by
      rintro rfl
      exact typed untyped
    rwa [type_set_of_ne differs]
  fresh _ := by
    refine Or.inr ⟨ir, bound, untyped, ?_⟩
    rw [type_set_self]
    exact nofun

theorem grown_fill (bound : ir < graph.nextId) (type : Option Ty) :
    Grown graph types (types.fill ir type) := by
  unfold Types.fill
  split
  next untyped => exact grown_set bound untyped _
  next => exact .refl types

theorem grown_pushToOperands {type : Ty} {operands : List (Nat × Nat)}
    (bound : ∀ operand ∈ operands, operand.2 < graph.nextId) :
    Grown graph types (pushToOperands type operands types) := by
  induction operands generalizing types with
  | nil => exact .refl types
  | cons operand operands ih =>
    obtain ⟨here, others⟩ := List.forall_mem_cons.1 bound
    exact (grown_fill here (some type)).trans (ih others)

theorem grown_scanPhi (formed : Formed graph) (bound : ir < graph.nextId) :
    Grown graph types (scanPhi graph ir types) := by
  unfold scanPhi
  split
  next => exact grown_pushToOperands fun operand member => (formed.operands ir bound operand member).1
  next => exact grown_fill bound _

theorem grown_demand {wordsize : Nat} {child : Option Nat} {rule : Rule}
    (bound : ∀ c ∈ child, c < graph.nextId) :
    Grown graph types (demand wordsize graph ir child rule types) := by
  cases child with
  | none => exact .refl types
  | some child =>
    rw [demand]
    split
    next => exact grown_fill (bound child rfl) _
    next => exact .refl types

theorem pull_ok {child : Option Nat} {rule : Rule} (present : rule = .any → child ≠ none) :
    pull ir child rule types = .ok types ∨ ∃ type, pull ir child rule types = .ok (types.set ir type) := by
  unfold pull
  by_cases isAny : rule = .any
  · rw [if_pos isAny]
    cases child with
    | none => exact absurd rfl (present isAny)
    | some child =>
      cases found : types.type child with
      | none => exact Or.inl (by simp only [found])
      | some type => exact Or.inr ⟨type, by simp only [found]⟩
  · exact Or.inl (if_neg isAny)

theorem grown_pullBoth (formed : Formed graph) (bound : ir < graph.nextId) :
    ∃ types', pullBoth graph ir types = .ok types' ∧ Grown graph types types' := by
  unfold pullBoth
  dsimp only
  split
  next untyped =>
    have grown (type : Ty) : Grown graph types (types.set ir type) := grown_set bound untyped.1 type
    obtain left | ⟨first, left⟩ := @pull_ok types ir _ _ (formed.hasLeft ir bound)
    · rw [left]
      obtain right | ⟨second, right⟩ := @pull_ok types ir _ _ (formed.hasRight ir bound)
      · exact ⟨_, right, .refl types⟩
      · exact ⟨_, right, grown second⟩
    · rw [left]
      obtain right | ⟨second, right⟩ :=
        @pull_ok (types.set ir first) ir _ _ (formed.hasRight ir bound)
      · exact ⟨_, right, grown first⟩
      · rw [set_set] at right
        exact ⟨_, right, grown second⟩
  next => exact ⟨types, rfl, .refl types⟩

theorem grown_push {child : Option Nat} {rule : Rule} (present : rule = .any → child ≠ none)
    (bound : ∀ c ∈ child, c < graph.nextId) :
    ∃ types', push ir child rule types = .ok types' ∧ Grown graph types types' := by
  unfold push
  split
  next typed =>
    cases child with
    | none => exact absurd rfl (present typed.2)
    | some child => exact ⟨_, rfl, grown_fill (bound child rfl) _⟩
  next => exact ⟨types, rfl, .refl types⟩

theorem grown_scanIr (formed : Formed graph) (wordsize : Nat) (bound : ir < graph.nextId) :
    ∃ types', scanIr wordsize graph ir types = .ok types' ∧ Grown graph types types' := by
  unfold scanIr
  dsimp only
  split
  next => exact ⟨_, rfl, grown_scanPhi formed bound⟩
  next =>
    have left := formed.left ir bound
    have right := formed.right ir bound
    obtain ⟨types₁, result₁, grown₁⟩ := @grown_pullBoth graph _ ir formed bound
    rw [result₁]
    dsimp only
    obtain ⟨types₂, result₂, grown₂⟩ := @grown_push graph types₁ ir _ _ (formed.hasLeft ir bound) left
    rw [result₂]
    obtain ⟨types₃, result₃, grown₃⟩ :=
      @grown_push graph types₂ ir _ _ (formed.hasRight ir bound) right
    refine ⟨types₃, result₃, Grown.trans ?_ ((grown₁.trans grown₂).trans grown₃)⟩
    exact ((grown_fill bound _).trans (grown_demand left)).trans (grown_demand right)

theorem grown_scanIrs (formed : Formed graph) (wordsize : Nat) {irs : List Nat}
    (bound : ∀ ir ∈ irs, ir < graph.nextId) :
    ∃ types', scanIrs wordsize graph irs types = .ok types' ∧ Grown graph types types' := by
  induction irs generalizing types with
  | nil => exact ⟨types, rfl, .refl types⟩
  | cons ir irs ih =>
    obtain ⟨here, others⟩ := List.forall_mem_cons.1 bound
    obtain ⟨types₁, result₁, grown₁⟩ := @grown_scanIr graph types ir formed wordsize here
    obtain ⟨types₂, result₂, grown₂⟩ := @ih types₁ others
    refine ⟨types₂, ?_, grown₁.trans grown₂⟩
    rw [scanIrs, result₁]
    exact result₂

def typedCount (graph : Graph) (type : Nat → Option Ty) : Nat :=
  (List.range graph.nextId).countP fun ir => (type ir).isSome

theorem typedCount_le (graph : Graph) (type : Nat → Option Ty) :
    typedCount graph type ≤ graph.nextId := by
  have most := List.countP_le_length (p := fun ir => (type ir).isSome) (l := List.range graph.nextId)
  rwa [List.length_range] at most

theorem Grown.typedCount_lt {types' : Types} (grown : Grown graph types types')
    (quiet : types.changed = false) (changed : types'.changed = true) :
    typedCount graph types.type < typedCount graph types'.type := by
  obtain before | ⟨ir, bound, untyped, typed⟩ := grown.fresh changed
  · rw [quiet] at before
    cases before
  · refine countP_lt_countP (fun other _ isTyped => ?_) (List.mem_range.2 bound) ?_ ?_
    · rw [Option.isSome_iff_ne_none] at isTyped ⊢
      exact grown.kept other isTyped
    · rw [untyped]
      exact nofun
    · exact Option.isSome_iff_ne_none.2 typed

theorem propagateTypes_ends (formed : Formed graph) (wordsize : Nat) {irs : List Nat}
    (bound : ∀ ir ∈ irs, ir < graph.nextId) (fuel : Nat) {type : Nat → Option Ty}
    (enough : graph.nextId < fuel + typedCount graph type) :
    ∃ type', propagateTypes wordsize graph irs fuel type = .ok type' := by
  induction fuel generalizing type with
  | zero =>
    have most := typedCount_le graph type
    omega
  | succ fuel ih =>
    obtain ⟨types, result, grown⟩ := @grown_scanIrs graph ⟨type, false⟩ formed wordsize irs bound
    rw [propagateTypes, result]
    dsimp only
    cases changed : types.changed with
    | false => exact ⟨types.type, rfl⟩
    | true =>
      have more := grown.typedCount_lt rfl changed
      exact ih (by dsimp only at more; omega)

end AckFormal.Mcg.TypePropagation
