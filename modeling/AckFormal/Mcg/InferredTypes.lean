import AckFormal.Mcg.OperandCopies

/-!
# Inferred types

Whatever propagation has found, a node without a type gets one by its size, and the
copies make up for every difference between a child and its parent.
-/

namespace AckFormal.Mcg.InferredTypes

open AckFormal.Data TypeInference TypePropagation InsertedCopies OperandCopies

variable {graph graph' : Graph} {wordsize : Nat}

/-! ## Fallback types -/

variable {irs : List Nat}

theorem fallback_kept {type : Nat → Option Ty} {ir : Nat} (typed : type ir ≠ none) :
    assignFallbackTypes wordsize graph irs type ir ≠ none := by
  induction irs generalizing type with
  | nil => exact typed
  | cons other irs ih =>
    apply ih
    split
    next untyped =>
      have differs : ir ≠ other := by
        rintro rfl
        exact typed untyped.1
      rwa [Function.update_of_ne differs]
    next => exact typed

def Sized (wordsize size : Nat) : Prop := size = wordsize ∨ size = wordsize * 2

theorem effectiveType_int {size : Nat} (sized : Sized wordsize size) :
    effectiveType wordsize size .int ≠ none := by
  rw [effectiveType]
  by_cases isWord : size = wordsize
  · rw [if_pos isWord]
    exact nofun
  · rw [if_neg isWord, if_pos (sized.resolve_left isWord)]
    exact nofun

theorem fallback_typed (type : Nat → Option Ty) {ir : Nat} (member : ir ∈ irs)
    (isAny : (irData (graph.node ir).opcode).returntype = .any)
    (sized : Sized wordsize (graph.node ir).size) :
    assignFallbackTypes wordsize graph irs type ir ≠ none := by
  induction irs generalizing type with
  | nil => cases member
  | cons other irs ih =>
    rw [assignFallbackTypes]
    obtain rfl | member := List.mem_cons.1 member
    · apply fallback_kept
      by_cases untyped : type ir = none
      · rw [if_pos ⟨untyped, isAny⟩, Function.update_self]
        exact effectiveType_int sized
      · rw [if_neg fun h => untyped h.1]
        exact untyped
    · exact ih _ member

/-! ## Copies -/

theorem copyOpcode_data {type real : Ty} {opcode : Opcode}
    (isOpcode : copyOpcode type real = some opcode) :
    (irData opcode).returntype = .exactly type ∧ (irData opcode).lefttype = .exactly real := by
  cases type <;> cases real <;> cases isOpcode <;> exact ⟨rfl, rfl⟩

/-- The child of a copy has the type that its opcode takes. -/
theorem IsCopy.fits {child c root : Nat} {type : Ty} (isCopy : IsCopy graph child c type root) :
    ∀ x ∈ (graph.node c).left, ∀ wants ∈ wanted wordsize (graph.node c)
      (irData (graph.node c).opcode).returntype (irData (graph.node c).opcode).lefttype,
        (graph.node x).type = some wants := by
  obtain ⟨real, opcode, isOpcode, isReal, node⟩ := isCopy.exists_node
  obtain ⟨returntype, lefttype⟩ := copyOpcode_data isOpcode
  rw [node]
  rw [returntype, lefttype]
  rintro x ⟨⟩ wants ⟨⟩
  exact isReal

/-- `c` is a copy of a child or an operand of one of `irs`, which has `c` now; the copy
of an operand is in the block that exports it. -/
inductive AddedFor (graph graph' : Graph) (irs : List Nat) (c : Nat) : Prop where
  | left {ir child root : Nat} {type : Ty} (member : ir ∈ irs)
      (isCopy : IsCopy graph' child c type root) (before : (graph.node ir).left = some child)
      (after : (graph'.node ir).left = some c) : AddedFor graph graph' irs c
  | right {ir child root : Nat} {type : Ty} (member : ir ∈ irs)
      (isCopy : IsCopy graph' child c type root) (before : (graph.node ir).right = some child)
      (after : (graph'.node ir).right = some c) : AddedFor graph graph' irs c
  | operand {ir bb child root : Nat} {type : Ty} (member : ir ∈ irs)
      (isCopy : IsCopy graph' child c type root) (before : (bb, child) ∈ (graph.node ir).phivalue)
      (after : (bb, c) ∈ (graph'.node ir).phivalue) (placed : c ∈ graph'.irs bb) :
      AddedFor graph graph' irs c

theorem AddedFor.exists_copy {c : Nat} (added : AddedFor graph graph' irs c) :
    ∃ child type root, IsCopy graph' child c type root := by
  cases added with
  | left member isCopy before after => exact ⟨_, _, _, isCopy⟩
  | right member isCopy before after => exact ⟨_, _, _, isCopy⟩
  | operand member isCopy before after placed => exact ⟨_, _, _, isCopy⟩

/-- The nodes there are after the pass: those collected, and the copies. -/
def Present (graph graph' : Graph) (irs : List Nat) (ir : Nat) : Prop :=
  ir ∈ irs ∨ graph.nextId ≤ ir ∧ ir < graph'.nextId

def demanded (wordsize : Nat) (graph : Graph) (ir : Nat) (childtype : Rule) : Option Ty :=
  wanted wordsize (graph.node ir) (irData (graph.node ir).opcode).returntype childtype

/-- What the pass achieves, and that it adds nothing but copies. -/
structure Inferred (wordsize : Nat) (graph : Graph) (irs : List Nat) (graph' : Graph) : Prop where
  collected : Collected graph irs
  typed : ∀ ir ∈ irs, (irData (graph'.node ir).opcode).returntype = .any →
    Sized wordsize (graph'.node ir).size → (graph'.node ir).type ≠ none
  left : ∀ ir, Present graph graph' irs ir → ∀ child ∈ (graph'.node ir).left,
    ∀ type ∈ demanded wordsize graph' ir (irData (graph'.node ir).opcode).lefttype,
      (graph'.node child).type = some type
  right : ∀ ir, Present graph graph' irs ir → ∀ child ∈ (graph'.node ir).right,
    ∀ type ∈ demanded wordsize graph' ir (irData (graph'.node ir).opcode).righttype,
      (graph'.node child).type = some type
  operands : ∀ ir ∈ irs, ∀ operand ∈ (graph'.node ir).phivalue,
    (graph'.node operand.2).type = (graph'.node ir).type
  leftKept : ∀ ir ∈ irs, (graph'.node ir).left = (graph.node ir).left ∨
    ∃ c ≥ graph.nextId, (graph'.node ir).left = some c
  rightKept : ∀ ir ∈ irs, (graph'.node ir).right = (graph.node ir).right ∨
    ∃ c ≥ graph.nextId, (graph'.node ir).right = some c
  operandsKept : ∀ ir ∈ irs, List.Forall₂
    (fun before after => after.1 = before.1 ∧ (after.2 = before.2 ∨ graph.nextId ≤ after.2))
    (graph.node ir).phivalue (graph'.node ir).phivalue
  opcode : ∀ ir < graph.nextId, (graph'.node ir).opcode = (graph.node ir).opcode
  size : ∀ ir < graph.nextId, (graph'.node ir).size = (graph.node ir).size
  added : ∀ c, graph.nextId ≤ c → c < graph'.nextId → AddedFor graph graph' irs c
  blocks : ∀ bb, Lengthened graph.nextId (graph.irs bb) (graph'.irs bb)

theorem wanted_eq {node node' : Ir} (same : SameNode node node') (returntype childtype : Rule) :
    wanted wordsize node' returntype childtype = wanted wordsize node returntype childtype := by
  rw [wanted, wanted, same.type, same.size]

theorem Slot.kept {old root : Nat} {wants : Option Ty} {before after : Option Nat}
    (slot : Slot old graph root wants before after) : after = before ∨ ∃ c ≥ old, after = some c := by
  cases slot with
  | none => exact Or.inl rfl
  | same fits => exact Or.inl rfl
  | copy new bound isWanted isCopy => exact Or.inr ⟨_, new, rfl⟩

theorem Slot.isCopy {old root c : Nat} {wants : Option Ty} {before : Option Nat}
    (slot : Slot old graph root wants before (some c)) (isOld : ∀ child ∈ before, child < old)
    (new : old ≤ c) : ∃ child type, before = some child ∧ IsCopy graph child c type root := by
  cases slot with
  | same fits => exact absurd (isOld c rfl) (Nat.not_lt.2 new)
  | copy new bound isWanted isCopy => exact ⟨_, _, rfl, isCopy⟩

theorem exists_of_mem_right {α : Type} {R : α → α → Prop} {before after : List α}
    (related : List.Forall₂ R before after) {y : α} (member : y ∈ after) : ∃ x ∈ before, R x y := by
  induction related with
  | nil => cases member
  | cons first _ ih =>
    obtain rfl | member := List.mem_cons.1 member
    · exact ⟨_, List.mem_cons_self, first⟩
    · obtain ⟨x, inBefore, holds⟩ := ih member
      exact ⟨x, List.mem_cons_of_mem _ inBefore, holds⟩

/-! ## The pass -/

structure Copying (wordsize : Nat) (graph : Graph) (irs : List Nat) (type : Nat → Option Ty)
    (graph₁ graph' : Graph) : Prop where
  formed : Formed graph
  collected : Collected graph irs
  inserted : Inserted wordsize graph.nextId irs
    (graph.withTypes (assignFallbackTypes wordsize graph irs type)) graph₁
  exported : Exported graph.nextId irs graph₁ graph'

namespace Copying

variable {irs : List Nat} {type : Nat → Option Ty} {graph₁ : Graph}
  (copying : Copying wordsize graph irs type graph₁ graph')
include copying

theorem stable : Stable graph.nextId
    (graph.withTypes (assignFallbackTypes wordsize graph irs type)) graph' :=
  copying.inserted.stable.trans copying.exported.placed.stable

section

variable {ir : Nat} (member : ir ∈ irs)
include member

theorem sameNode :
    SameNode ((graph.withTypes (assignFallbackTypes wordsize graph irs type)).node ir)
      (graph'.node ir) :=
  copying.stable.same ir (copying.collected.listed.bound ir member)

theorem leftSlot :
    Slot graph.nextId graph' (graph.node ir).root
      (demanded wordsize graph' ir (irData (graph'.node ir).opcode).lefttype)
      (graph.node ir).left (graph'.node ir).left := by
  have isOld := copying.collected.listed.bound ir member
  have same := copying.sameNode member
  rw [demanded, wanted_eq same, same.opcode, copying.exported.placed.left ir isOld]
  exact (copying.inserted.left ir member).stable copying.exported.placed.stable
    (copying.formed.left ir isOld)

theorem rightSlot :
    Slot graph.nextId graph' (graph.node ir).root
      (demanded wordsize graph' ir (irData (graph'.node ir).opcode).righttype)
      (graph.node ir).right (graph'.node ir).right := by
  have isOld := copying.collected.listed.bound ir member
  have same := copying.sameNode member
  rw [demanded, wanted_eq same, same.opcode, copying.exported.placed.right ir isOld]
  exact (copying.inserted.right ir member).stable copying.exported.placed.stable
    (copying.formed.right ir isOld)

theorem operandSlots :
    List.Forall₂ (OperandSlot graph.nextId graph' (graph'.node ir).type)
      (graph.node ir).phivalue (graph'.node ir).phivalue := by
  have isOld := copying.collected.listed.bound ir member
  have slots := copying.exported.slots ir member
  rw [copying.inserted.phivalue ir isOld] at slots
  rw [(copying.exported.placed.stable.same ir isOld).type]
  exact slots

end

theorem addedFor {c : Nat} (above : graph.nextId ≤ c) (below : c < graph'.nextId) :
    AddedFor graph graph' irs c := by
  by_cases early : c < graph₁.nextId
  · obtain ⟨ir, member, isChild⟩ := copying.inserted.used c above early
    have isOld := copying.collected.listed.bound ir member
    rw [← copying.exported.placed.left ir isOld, ← copying.exported.placed.right ir isOld] at isChild
    obtain isLeft | isRight := isChild
    · have slot := copying.leftSlot member
      rw [isLeft] at slot
      obtain ⟨child, type, before, isCopy⟩ :=
        Slot.isCopy slot (copying.formed.left ir isOld) above
      exact .left member isCopy before isLeft
    · have slot := copying.rightSlot member
      rw [isRight] at slot
      obtain ⟨child, type, before, isCopy⟩ :=
        Slot.isCopy slot (copying.formed.right ir isOld) above
      exact .right member isCopy before isRight
  · obtain ⟨ir, member, ⟨bb, x⟩, isOperand, rfl⟩ :=
      copying.exported.used c (Nat.not_lt.1 early) below
    have isOld := copying.collected.listed.bound ir member
    obtain ⟨⟨bb', child⟩, before, slot⟩ :=
      exists_of_mem_right (copying.operandSlots member) isOperand
    cases slot with
    | same fits =>
      exact absurd (copying.formed.operands ir isOld _ before).1 (Nat.not_lt.2 above)
    | copy new bound isType isCopy placed => exact .operand member isCopy before isOperand placed

/-- What the passes over the nodes achieve together. -/
theorem inferred : Inferred wordsize graph irs graph' where
  collected := copying.collected
  typed ir member isAny sized := by
    have same := copying.sameNode member
    rw [same.opcode] at isAny
    rw [same.size] at sized
    rw [same.type]
    exact fallback_typed type member isAny sized
  left ir present := by
    obtain member | ⟨above, below⟩ := present
    · exact (copying.leftSlot member).fits
    · obtain ⟨child, type, root, isCopy⟩ := (copying.addedFor above below).exists_copy
      exact IsCopy.fits isCopy
  right ir present := by
    obtain member | ⟨above, below⟩ := present
    · exact (copying.rightSlot member).fits
    · obtain ⟨child, type, root, isCopy⟩ := (copying.addedFor above below).exists_copy
      obtain ⟨_, _, _, _, node⟩ := isCopy.exists_node
      rw [node]
      exact nofun
  operands ir member operand isOperand := by
    obtain ⟨_, _, slot⟩ := exists_of_mem_right (copying.operandSlots member) isOperand
    exact slot.fits
  leftKept ir member := Slot.kept (copying.leftSlot member)
  rightKept ir member := Slot.kept (copying.rightSlot member)
  operandsKept ir member := by
    refine (copying.operandSlots member).imp fun before after slot => ?_
    cases slot with
    | same fits => exact ⟨rfl, Or.inl rfl⟩
    | copy new bound isType isCopy placed => exact ⟨rfl, Or.inr new⟩
  opcode ir isOld := (copying.stable.same ir isOld).opcode
  size ir isOld := (copying.stable.same ir isOld).size
  added c above below := copying.addedFor above below
  blocks bb := by
    have lengthened := copying.exported.placed.blocks bb
    rwa [copying.inserted.blocks] at lengthened

end Copying

/-- The pass ends, and what it returns has the types that parents, phis and, where the
size allows for one, the table ask for. -/
theorem passInferTypes_inferred (formed : Formed graph) (wordsize : Nat) {fuel : Nat}
    (enough : 2 * graph.nextId < fuel) :
    passInferTypes wordsize fuel graph = .error .fatal ∨
      ∃ irs graph', passInferTypes wordsize fuel graph = .ok (irs, graph') ∧
        Inferred wordsize graph irs graph' := by
  obtain ⟨irs, collecting, collected⟩ := collectIrs_collected formed enough
  have bound := collected.listed.bound
  obtain ⟨type, propagating⟩ :=
    @propagateTypes_ends graph formed wordsize irs bound fuel (fun ir => (graph.node ir).type)
      (by omega)
  rw [passInferTypes, collecting]
  dsimp only
  rw [propagating]
  dsimp only
  obtain failed | ⟨graph₁, result₁, inserted⟩ :=
    @insertIrCopies_inserted graph.nextId
      (graph.withTypes (assignFallbackTypes wordsize graph irs type)) wordsize irs
      collected.listed.nodup bound (Nat.le_refl _)
      (fun ir member => formed.left ir (bound ir member))
      (fun ir member => formed.right ir (bound ir member))
  · rw [failed]
    exact Or.inl rfl
  rw [result₁]
  dsimp only
  have operands (ir : Nat) (member : ir ∈ irs) (operand : Nat × Nat)
      (isOperand : operand ∈ (graph₁.node ir).phivalue) :
      operand.2 < graph.nextId ∧ graph₁.irs operand.1 ≠ [] := by
    rw [inserted.phivalue ir (bound ir member)] at isOperand
    rw [inserted.blocks]
    exact formed.operands ir (bound ir member) operand isOperand
  obtain failed | ⟨graph', result', exported⟩ :=
    insertPhiCopies_exported collected.listed.nodup bound inserted.stable.grows operands
  · rw [failed]
    exact Or.inl rfl
  rw [result']
  have copying : Copying wordsize graph irs type graph₁ graph' :=
    ⟨formed, collected, inserted, exported⟩
  exact Or.inr ⟨irs, graph', rfl, copying.inferred⟩

/-- A loop in which a phi of an address is added to itself as a float. -/
def phiLoop : Graph where
  node
    | 0 => ⟨.label, 4, none, none, none, 0, []⟩
    | 1 => ⟨.phi, 4, none, none, none, 1, [(0, 0), (1, 2)]⟩
    | 2 => ⟨.addf, 4, none, some 1, some 1, 2, []⟩
    | ir => ⟨.jump, 0, none, none, none, ir, []⟩
  nextId := 5
  irs
    | 0 => [0, 3]
    | _ => [1, 2, 4]
  preorder := [0, 1]

theorem phiLoop_formed : Formed phiLoop where
  left := by decide
  right := by decide
  operands := by decide
  roots := by decide
  hasLeft := by decide
  hasRight := by decide

theorem phiLoop_inferred :
    ∃ irs graph', passInferTypes 4 11 phiLoop = .ok (irs, graph') ∧
      Inferred 4 phiLoop irs graph' := by
  obtain failed | inferred := @passInferTypes_inferred phiLoop phiLoop_formed 4 11 (by decide)
  · have returns : (passInferTypes 4 11 phiLoop).isOk = true := by decide +kernel
    rw [failed] at returns
    cases returns
  · exact inferred

def retTwelve : Graph where
  node
    | 0 => ⟨.pop, 12, none, none, none, 0, []⟩
    | 1 => ⟨.setret, 12, none, some 0, none, 1, []⟩
    | 2 => ⟨.block, 4, none, none, none, 3, []⟩
    | 3 => ⟨.jump, 0, none, some 2, none, 3, []⟩
    | ir => ⟨.ret, 0, none, none, none, ir, []⟩
  nextId := 5
  irs
    | 0 => [0, 1, 3]
    | _ => [4]
  preorder := [0, 1]

theorem retTwelve_formed : Formed retTwelve where
  left := by decide
  right := by decide
  operands := by decide
  roots := by decide
  hasLeft := by decide
  hasRight := by decide

/-- Twelve bytes are neither a word nor two, so no type is found for them. -/
theorem retTwelve_untyped :
    Formed retTwelve ∧ ∃ irs graph', passInferTypes 4 11 retTwelve = .ok (irs, graph') ∧
      ∃ ir ∈ irs, (irData (graph'.node ir).opcode).returntype = .any ∧
        (graph'.node ir).type = none := by
  have untyped : (passInferTypes 4 11 retTwelve).map (fun result => result.1.any fun ir =>
      (irData (result.2.node ir).opcode).returntype = .any && (result.2.node ir).type = none) =
        .ok true := by
    decide +kernel
  refine ⟨retTwelve_formed, ?_⟩
  cases result : passInferTypes 4 11 retTwelve with
  | error failure =>
    rw [result] at untyped
    cases untyped
  | ok inferred =>
    rw [result] at untyped
    obtain ⟨ir, member, holds⟩ := List.any_eq_true.1 (Except.ok.inj untyped)
    rw [Bool.and_eq_true, decide_eq_true_iff, decide_eq_true_iff] at holds
    exact ⟨inferred.1, inferred.2, rfl, ir, member, holds⟩

end AckFormal.Mcg.InferredTypes
