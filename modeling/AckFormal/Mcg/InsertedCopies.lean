import AckFormal.Mcg.TypePropagation

/-!
# Inserted copies

A child of another type than its parent wants is replaced by a copy that has that
type.  Neither the types nor the nodes that there were before are changed otherwise.
-/

namespace AckFormal.Mcg.InsertedCopies

open AckFormal.Data TypeInference TypePropagation

structure SameNode (node node' : Ir) : Prop where
  opcode : node'.opcode = node.opcode
  size : node'.size = node.size
  type : node'.type = node.type
  root : node'.root = node.root

theorem SameNode.refl (node : Ir) : SameNode node node := ⟨rfl, rfl, rfl, rfl⟩

theorem SameNode.trans {node node' node'' : Ir} (first : SameNode node node')
    (second : SameNode node' node'') : SameNode node node'' where
  opcode := second.opcode.trans first.opcode
  size := second.size.trans first.size
  type := second.type.trans first.type
  root := second.root.trans first.root

/-- The nodes below `old` keep these fields, and the copies made so far are kept. -/
structure Stable (old : Nat) (graph graph' : Graph) : Prop where
  grows : graph.nextId ≤ graph'.nextId
  same : ∀ ir < old, SameNode (graph.node ir) (graph'.node ir)
  copies : ∀ c, old ≤ c → c < graph.nextId → graph'.node c = graph.node c

variable {old : Nat} {graph graph' graph'' : Graph}

theorem Stable.refl (old : Nat) (graph : Graph) : Stable old graph graph :=
  ⟨Nat.le_refl _, fun _ _ => .refl _, fun _ _ _ => rfl⟩

theorem Stable.trans (first : Stable old graph graph') (second : Stable old graph' graph'') :
    Stable old graph graph'' where
  grows := Nat.le_trans first.grows second.grows
  same ir bound := (first.same ir bound).trans (second.same ir bound)
  copies c new bound :=
    (second.copies c new (Nat.lt_of_lt_of_le bound first.grows)).trans (first.copies c new bound)

structure IsCopy (graph : Graph) (child c : Nat) (type : Ty) (root : Nat) : Prop where
  exists_node : ∃ real opcode, copyOpcode type real = some opcode ∧
    (graph.node child).type = some real ∧
    graph.node c = ⟨opcode, (graph.node child).size, some type, some child, none, root, []⟩

variable {root ir other : Nat}

section

variable {child c : Nat} {type : Ty} (isCopy : IsCopy graph child c type root)
include isCopy

theorem IsCopy.type_eq :
    (graph.node c).type = some type := by
  obtain ⟨_, _, _, _, node⟩ := isCopy.exists_node
  rw [node]

theorem IsCopy.stable (stable : Stable old graph graph') (isOld : child < old) (new : old ≤ c)
    (bound : c < graph.nextId) : IsCopy graph' child c type root where
  exists_node := by
    obtain ⟨real, opcode, isOpcode, isReal, node⟩ := isCopy.exists_node
    have same := stable.same child isOld
    refine ⟨real, opcode, isOpcode, same.type.trans isReal, ?_⟩
    rw [stable.copies c new bound, node, same.size]

end

/-- What becomes of a pointer to a child from which `wanted` is wanted. -/
inductive Slot (old : Nat) (graph : Graph) (root : Nat) (wanted : Option Ty) :
    Option Nat → Option Nat → Prop where
  | none : Slot old graph root wanted none none
  | same {child : Nat} (fits : ∀ type ∈ wanted, (graph.node child).type = some type) :
      Slot old graph root wanted (some child) (some child)
  | copy {child c : Nat} {type : Ty} (new : old ≤ c) (bound : c < graph.nextId)
      (isWanted : wanted = some type) (isCopy : IsCopy graph child c type root) :
      Slot old graph root wanted (some child) (some c)

theorem Slot.stable {wanted : Option Ty} {before after : Option Nat}
    (slot : Slot old graph root wanted before after) (stable : Stable old graph graph')
    (isOld : ∀ child ∈ before, child < old) : Slot old graph' root wanted before after := by
  cases slot with
  | none => exact .none
  | same fits =>
    refine .same fun type isWanted => ?_
    rw [(stable.same _ (isOld _ rfl)).type]
    exact fits type isWanted
  | copy new bound isWanted isCopy =>
    exact .copy new (Nat.lt_of_lt_of_le bound stable.grows) isWanted
      (isCopy.stable stable (isOld _ rfl) new bound)

theorem Slot.fits {root : Nat} {wanted : Option Ty} {before after : Option Nat}
    (slot : Slot old graph root wanted before after) :
    ∀ child ∈ after, ∀ type ∈ wanted, (graph.node child).type = some type := by
  cases slot with
  | none => exact nofun
  | same fits =>
    rintro child ⟨⟩
    exact fits
  | copy new bound isWanted isCopy =>
    rintro child ⟨⟩ type isType
    rw [isWanted] at isType
    cases isType
    exact isCopy.type_eq

/-! ## One copy -/

/-- New nodes come after the others, which stay as they are. -/
structure Extends (graph graph' : Graph) : Prop where
  grows : graph.nextId ≤ graph'.nextId
  node : ∀ ir < graph.nextId, graph'.node ir = graph.node ir
  irs : graph'.irs = graph.irs

theorem Extends.stable (extends' : Extends graph graph') (bound : old ≤ graph.nextId) :
    Stable old graph graph' where
  grows := extends'.grows
  same ir isOld := by
    rw [extends'.node ir (Nat.lt_of_lt_of_le isOld bound)]
    exact .refl _
  copies c _ below := extends'.node c below

theorem newCopy_copies {wanted real : Option Ty} {child root : Nat} (bound : child < graph.nextId)
    (isReal : (graph.node child).type = real) :
    newCopy graph wanted real child root = .error .fatal ∨
      ∃ type copied, wanted = some type ∧ newCopy graph wanted real child root = .ok copied ∧
        Extends graph copied ∧ copied.nextId = graph.nextId + 1 ∧
        IsCopy copied child graph.nextId type root := by
  unfold newCopy
  split
  next type real' =>
    cases isOpcode : copyOpcode type real' with
    | none => exact Or.inl rfl
    | some opcode =>
      have differs : child ≠ graph.nextId := Nat.ne_of_lt bound
      refine Or.inr ⟨type, _, rfl, rfl, ⟨Nat.le_succ _, fun ir below => ?_, rfl⟩, rfl, ?_⟩
      · exact Function.update_of_ne (Nat.ne_of_lt below) _ _
      · refine ⟨real', opcode, isOpcode, ?_, ?_⟩ <;> dsimp only
        · rw [Function.update_of_ne differs, isReal]
        · rw [Function.update_of_ne differs, Function.update_self]
  next => exact Or.inl rfl

structure Copied (old : Nat) (graph graph' : Graph) (root : Nat) (wanted : Option Ty)
    (before after : Option Nat) : Prop where
  isExtension : Extends graph graph'
  slot : Slot old graph' root wanted before after
  used : ∀ c, graph.nextId ≤ c → c < graph'.nextId → after = some c

/-- A child of another type gets a copy, and one that cannot be copied stops the pass. -/
theorem insertCopy_copied (wordsize : Nat) (bound : old ≤ graph.nextId) (ir : Nat)
    {child : Option Nat} (exists' : ∀ c ∈ child, c < graph.nextId) (returntype childtype : Rule) :
    insertCopy wordsize graph ir child returntype childtype = .error .fatal ∨
      ∃ graph' after, insertCopy wordsize graph ir child returntype childtype = .ok (graph', after) ∧
        Copied old graph graph' (graph.node ir).root
          (wanted wordsize (graph.node ir) returntype childtype) child after := by
  have unchanged : Extends graph graph := ⟨Nat.le_refl _, fun _ _ => rfl, rfl⟩
  have unused (after : Option Nat) (c : Nat) (above : graph.nextId ≤ c) (below : c < graph.nextId) :
      after = some c :=
    absurd below (Nat.not_lt.2 above)
  cases child with
  | none => exact Or.inr ⟨graph, none, rfl, unchanged, .none, unused none⟩
  | some child =>
    unfold insertCopy
    dsimp only
    cases isWanted : wanted wordsize (graph.node ir) returntype childtype with
    | none =>
      exact Or.inr ⟨graph, some child, rfl, unchanged, .same nofun, unused (some child)⟩
    | some type =>
      by_cases fits : some type = (graph.node child).type
      · refine Or.inr ⟨graph, some child, if_neg (not_not.2 fits), unchanged, .same ?_,
          unused (some child)⟩
        rintro _ ⟨⟩
        exact fits.symm
      · simp only [ne_eq, fits]
        obtain failed | ⟨type', copied, isType, result, extends', count, isCopy⟩ :=
          @newCopy_copies graph (some type) _ child (graph.node ir).root (exists' child rfl) rfl
        · rw [failed]
          exact Or.inl rfl
        · rw [result]
          refine Or.inr ⟨copied, some graph.nextId, rfl, extends', ?_, fun c above below => ?_⟩
          · exact .copy bound (by omega) isType isCopy
          · exact congrArg some (by omega)

/-! ## The children of a node -/

structure Inserted (wordsize old : Nat) (irs : List Nat) (graph graph' : Graph) : Prop where
  stable : Stable old graph graph'
  left : ∀ ir ∈ irs, Slot old graph' (graph.node ir).root
    (wanted wordsize (graph.node ir) (irData (graph.node ir).opcode).returntype
      (irData (graph.node ir).opcode).lefttype) (graph.node ir).left (graph'.node ir).left
  right : ∀ ir ∈ irs, Slot old graph' (graph.node ir).root
    (wanted wordsize (graph.node ir) (irData (graph.node ir).opcode).returntype
      (irData (graph.node ir).opcode).righttype) (graph.node ir).right (graph'.node ir).right
  others : ∀ ir < old, ir ∉ irs → graph'.node ir = graph.node ir
  phivalue : ∀ ir < old, (graph'.node ir).phivalue = (graph.node ir).phivalue
  blocks : graph'.irs = graph.irs
  used : ∀ c, graph.nextId ≤ c → c < graph'.nextId →
    ∃ ir ∈ irs, (graph'.node ir).left = some c ∨ (graph'.node ir).right = some c

theorem node_setLeft (graph : Graph) (ir : Nat) (left : Option Nat) :
    (graph.setLeft ir left).node ir = { graph.node ir with left := left } :=
  Function.update_self ir _ _

theorem node_setRight (graph : Graph) (ir : Nat) (right : Option Nat) :
    (graph.setRight ir right).node ir = { graph.node ir with right := right } :=
  Function.update_self ir _ _

theorem node_setLeft_of_ne (differs : other ≠ ir) (left : Option Nat) :
    (graph.setLeft ir left).node other = graph.node other :=
  Function.update_of_ne differs _ _

theorem node_setRight_of_ne (differs : other ≠ ir) (right : Option Nat) :
    (graph.setRight ir right).node other = graph.node other :=
  Function.update_of_ne differs _ _

theorem setLeft_stable (isOld : ir < old) (left : Option Nat) :
    Stable old graph (graph.setLeft ir left) where
  grows := Nat.le_refl _
  same other _ := by
    by_cases here : other = ir
    · rw [here, node_setLeft]
      exact ⟨rfl, rfl, rfl, rfl⟩
    · rw [node_setLeft_of_ne here]
      exact .refl _
  copies c new _ := node_setLeft_of_ne (Nat.ne_of_gt (Nat.lt_of_lt_of_le isOld new)) left

theorem setRight_stable (isOld : ir < old) (right : Option Nat) :
    Stable old graph (graph.setRight ir right) where
  grows := Nat.le_refl _
  same other _ := by
    by_cases here : other = ir
    · rw [here, node_setRight]
      exact ⟨rfl, rfl, rfl, rfl⟩
    · rw [node_setRight_of_ne here]
      exact .refl _
  copies c new _ := node_setRight_of_ne (Nat.ne_of_gt (Nat.lt_of_lt_of_le isOld new)) right

/-- A node gets copies for the operands of another type, or the pass stops. -/
theorem insertCopies_inserted (wordsize : Nat) (isOld : ir < old) (bound : old ≤ graph.nextId)
    (left : ∀ c ∈ (graph.node ir).left, c < old) (right : ∀ c ∈ (graph.node ir).right, c < old) :
    insertCopies wordsize graph ir = .error .fatal ∨
      ∃ graph', insertCopies wordsize graph ir = .ok graph' ∧
        Inserted wordsize old [ir] graph graph' := by
  unfold insertCopies
  dsimp only
  obtain failed | ⟨graph₁, left', result₁, copied₁⟩ :=
    insertCopy_copied wordsize bound ir (fun c member => Nat.lt_of_lt_of_le (left c member) bound)
      (irData (graph.node ir).opcode).returntype (irData (graph.node ir).opcode).lefttype
  · rw [failed]
    exact Or.inl rfl
  rw [result₁]
  dsimp only
  have node₁ : graph₁.node ir = graph.node ir :=
    copied₁.isExtension.node ir (Nat.lt_of_lt_of_le isOld bound)
  have node₂ : (graph₁.setLeft ir left').node ir = { graph.node ir with left := left' } := by
    rw [node_setLeft, node₁]
  have bound₂ : old ≤ (graph₁.setLeft ir left').nextId :=
    Nat.le_trans bound copied₁.isExtension.grows
  have right₂ (c : Nat) (member : c ∈ ((graph₁.setLeft ir left').node ir).right) : c < old := by
    rw [node₂] at member
    exact right c member
  obtain failed | ⟨graph₃, right', result₃, copied₃⟩ :=
    insertCopy_copied wordsize bound₂ ir
      (fun c member => Nat.lt_of_lt_of_le (right₂ c member) bound₂)
      (irData (graph.node ir).opcode).returntype (irData (graph.node ir).opcode).righttype
  · rw [failed]
    exact Or.inl rfl
  rw [result₃]
  have node₃ : graph₃.node ir = { graph.node ir with left := left' } := by
    rw [copied₃.isExtension.node ir (Nat.lt_of_lt_of_le isOld bound₂), node₂]
  have node₄ : (graph₃.setRight ir right').node ir =
      { graph.node ir with left := left', right := right' } := by
    rw [node_setRight, node₃]
  have others (other : Nat) (isOther : other < old) (differs : other ≠ ir) :
      (graph₃.setRight ir right').node other = graph.node other := by
    rw [node_setRight_of_ne differs,
      copied₃.isExtension.node other (Nat.lt_of_lt_of_le isOther bound₂),
      node_setLeft_of_ne differs,
      copied₁.isExtension.node other (Nat.lt_of_lt_of_le isOther bound)]
  have stable₄ : Stable old graph₃ (graph₃.setRight ir right') := setRight_stable isOld right'
  have stable₂ : Stable old graph₁ (graph₃.setRight ir right') :=
    ((setLeft_stable isOld left').trans (copied₃.isExtension.stable bound₂)).trans stable₄
  refine Or.inr ⟨_, rfl, (copied₁.isExtension.stable bound).trans stable₂, ?_, ?_, ?_, ?_, ?_, ?_⟩
  · refine List.forall_mem_singleton.2 ?_
    rw [node₄]
    exact copied₁.slot.stable stable₂ left
  · refine List.forall_mem_singleton.2 ?_
    have slot := copied₃.slot.stable stable₄ right₂
    rw [node₂] at slot
    rw [node₄]
    exact slot
  · exact fun other isOther new => others other isOther fun same => new (by simp [same])
  · intro other isOther
    by_cases here : other = ir
    · rw [here, node₄]
    · rw [others other isOther here]
  · exact copied₃.isExtension.irs.trans copied₁.isExtension.irs
  · intro c above below
    refine ⟨ir, List.mem_singleton_self ir, ?_⟩
    rw [node₄]
    by_cases first : c < graph₁.nextId
    · exact Or.inl (copied₁.used c above first)
    · exact Or.inr (copied₃.used c (Nat.not_lt.1 first) below)

variable {irs : List Nat}

theorem not_mem_singleton (new : ir ∉ irs) (member : other ∈ irs) :
    other ∉ [ir] := by
  intro same
  rw [List.mem_singleton.1 same] at member
  exact new member

theorem Inserted.nil (wordsize old : Nat) (graph : Graph) : Inserted wordsize old [] graph graph where
  stable := .refl old graph
  left := nofun
  right := nofun
  others _ _ _ := rfl
  phivalue _ _ := rfl
  blocks := rfl
  used _ above below := absurd below (Nat.not_lt.2 above)

theorem Inserted.cons {wordsize ir : Nat} (first : Inserted wordsize old [ir] graph graph')
    (others : Inserted wordsize old irs graph' graph'') (new : ir ∉ irs) (isOld : ir < old)
    (old' : ∀ ir ∈ irs, ir < old) (left : ∀ c ∈ (graph.node ir).left, c < old)
    (right : ∀ c ∈ (graph.node ir).right, c < old) :
    Inserted wordsize old (ir :: irs) graph graph'' where
  stable := first.stable.trans others.stable
  left := by
    refine List.forall_mem_cons.2 ⟨?_, fun other member => ?_⟩
    · rw [others.others ir isOld new]
      exact (first.left ir (List.mem_singleton_self ir)).stable others.stable left
    · have slot := others.left other member
      rwa [first.others other (old' other member) (not_mem_singleton new member)] at slot
  right := by
    refine List.forall_mem_cons.2 ⟨?_, fun other member => ?_⟩
    · rw [others.others ir isOld new]
      exact (first.right ir (List.mem_singleton_self ir)).stable others.stable right
    · have slot := others.right other member
      rwa [first.others other (old' other member) (not_mem_singleton new member)] at slot
  others other isOther absent := by
    rw [List.mem_cons, not_or] at absent
    rw [others.others other isOther absent.2,
      first.others other isOther (by simpa using absent.1)]
  phivalue other isOther := (others.phivalue other isOther).trans (first.phivalue other isOther)
  blocks := others.blocks.trans first.blocks
  used c above below := by
    by_cases early : c < graph'.nextId
    · obtain ⟨x, member, isChild⟩ := first.used c above early
      obtain rfl := List.mem_singleton.1 member
      refine ⟨x, List.mem_cons_self, ?_⟩
      rwa [others.others x isOld new]
    · obtain ⟨x, member, isChild⟩ := others.used c (Nat.not_lt.1 early) below
      exact ⟨x, List.mem_cons_of_mem ir member, isChild⟩

theorem insertIrCopies_inserted (wordsize : Nat) {irs : List Nat} (nodup : irs.Nodup)
    (isOld : ∀ ir ∈ irs, ir < old) (bound : old ≤ graph.nextId)
    (left : ∀ ir ∈ irs, ∀ c ∈ (graph.node ir).left, c < old)
    (right : ∀ ir ∈ irs, ∀ c ∈ (graph.node ir).right, c < old) :
    insertIrCopies wordsize irs graph = .error .fatal ∨
      ∃ graph', insertIrCopies wordsize irs graph = .ok graph' ∧
        Inserted wordsize old irs graph graph' := by
  induction irs generalizing graph with
  | nil => exact Or.inr ⟨graph, rfl, .nil wordsize old graph⟩
  | cons ir irs ih =>
    obtain ⟨new, nodup⟩ := List.nodup_cons.1 nodup
    obtain ⟨isOldIr, isOldIrs⟩ := List.forall_mem_cons.1 isOld
    obtain ⟨leftIr, leftIrs⟩ := List.forall_mem_cons.1 left
    obtain ⟨rightIr, rightIrs⟩ := List.forall_mem_cons.1 right
    rw [insertIrCopies]
    obtain failed | ⟨graph₁, result₁, first⟩ :=
      insertCopies_inserted wordsize isOldIr bound leftIr rightIr
    · rw [failed]
      exact Or.inl rfl
    rw [result₁]
    have same (other : Nat) (member : other ∈ irs) : graph₁.node other = graph.node other :=
      first.others other (isOldIrs other member) (not_mem_singleton new member)
    obtain failed | ⟨graph₂, result₂, others⟩ :=
      ih nodup isOldIrs (Nat.le_trans bound first.stable.grows)
        (fun other member => same other member ▸ leftIrs other member)
        (fun other member => same other member ▸ rightIrs other member)
    · exact Or.inl failed
    · exact Or.inr ⟨graph₂, result₂, first.cons others new isOldIr isOldIrs leftIr rightIr⟩

end AckFormal.Mcg.InsertedCopies
