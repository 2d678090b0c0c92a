import AckFormal.Mcg.InsertedCopies

/-!
# Copies of operands

The copy of an operand of a phi is made in the block that exports the operand, before
the jump that ends it.
-/

namespace AckFormal.Mcg.OperandCopies

open AckFormal.Data TypeInference TypePropagation InsertedCopies

variable {old : Nat} {graph graph' graph'' : Graph}

inductive Lengthened (old : Nat) : List Nat → List Nat → Prop where
  | same (irs : List Nat) : Lengthened old irs irs
  | copies {init copies : List Nat} {last : Nat} (new : ∀ c ∈ copies, old ≤ c) :
      Lengthened old (init ++ [last]) (init ++ copies ++ [last])

namespace Lengthened

variable {irs irs' irs'' : List Nat}

theorem trans (first : Lengthened old irs irs') (second : Lengthened old irs' irs'') :
    Lengthened old irs irs'' := by
  cases first with
  | same => exact second
  | @copies init copies last new =>
    generalize isBlock : init ++ copies ++ [last] = block at second
    cases second with
    | same =>
      rw [← isBlock]
      exact .copies new
    | @copies init' copies' last' new' =>
      obtain ⟨rfl, isLast⟩ := List.append_inj' isBlock rfl
      cases isLast
      rw [List.append_assoc init]
      exact .copies (List.forall_mem_append.2 ⟨new, new'⟩)

theorem mem (lengthened : Lengthened old irs irs') {ir : Nat} (member : ir ∈ irs) : ir ∈ irs' := by
  cases lengthened with
  | same => exact member
  | copies new =>
    rw [List.mem_append] at member ⊢
    exact member.imp_left (List.mem_append_left _)

theorem ne_nil (lengthened : Lengthened old irs irs') (some : irs ≠ []) : irs' ≠ [] := by
  cases lengthened with
  | same => exact some
  | copies new => exact List.append_ne_nil_of_right_ne_nil _ (List.cons_ne_nil _ _)

theorem insert (some : irs ≠ []) {c : Nat} (new : old ≤ c) :
    Lengthened old irs (Arrays.insert irs c (irs.length - 1)) := by
  obtain rfl | ⟨init, last, rfl⟩ := List.eq_nil_or_concat irs
  · exact absurd rfl some
  · have count : (init ++ [last]).length - 1 = init.length := by
      rw [List.length_append, List.length_singleton, Nat.add_sub_cancel]
    have inserted : Arrays.insert (init ++ [last]) c ((init ++ [last]).length - 1) =
        init ++ [c] ++ [last] := by
      rw [Arrays.insert, count, List.take_left, List.drop_left, List.append_assoc]
      rfl
    rw [List.concat_eq_append, inserted]
    exact .copies (List.forall_mem_singleton.2 new)

end Lengthened

inductive OperandSlot (old : Nat) (graph : Graph) (type : Option Ty) :
    Nat × Nat → Nat × Nat → Prop where
  | same {bb child : Nat} (fits : (graph.node child).type = type) :
      OperandSlot old graph type (bb, child) (bb, child)
  | copy {bb child c : Nat} {wanted : Ty} (new : old ≤ c) (bound : c < graph.nextId)
      (isType : type = some wanted) (isCopy : IsCopy graph child c wanted c)
      (placed : c ∈ graph.irs bb) : OperandSlot old graph type (bb, child) (bb, c)

structure Placed (old : Nat) (graph graph' : Graph) : Prop where
  stable : Stable old graph graph'
  left : ∀ ir < old, (graph'.node ir).left = (graph.node ir).left
  right : ∀ ir < old, (graph'.node ir).right = (graph.node ir).right
  blocks : ∀ bb, Lengthened old (graph.irs bb) (graph'.irs bb)

theorem Placed.refl (old : Nat) (graph : Graph) : Placed old graph graph :=
  ⟨.refl old graph, fun _ _ => rfl, fun _ _ => rfl, fun bb => .same (graph.irs bb)⟩

theorem Placed.trans (first : Placed old graph graph') (second : Placed old graph' graph'') :
    Placed old graph graph'' where
  stable := first.stable.trans second.stable
  left ir isOld := (second.left ir isOld).trans (first.left ir isOld)
  right ir isOld := (second.right ir isOld).trans (first.right ir isOld)
  blocks bb := (first.blocks bb).trans (second.blocks bb)

section

variable {type : Option Ty} {before after : Nat × Nat} (slot : OperandSlot old graph type before after)
include slot

theorem OperandSlot.placed (placed : Placed old graph graph')
    (isOld : before.2 < old) : OperandSlot old graph' type before after := by
  cases slot with
  | same fits => exact .same ((placed.stable.same _ isOld).type.trans fits)
  | copy new bound isType isCopy inBlock =>
    exact .copy new (Nat.lt_of_lt_of_le bound placed.stable.grows) isType
      (isCopy.stable placed.stable isOld new bound) ((placed.blocks _).mem inBlock)

theorem OperandSlot.fits : (graph.node after.2).type = type := by
  cases slot with
  | same fits => exact fits
  | copy new bound isType isCopy inBlock => rw [isCopy.type_eq, isType]

end

structure Operands (old ir : Nat) (operands : List (Nat × Nat)) (graph graph' : Graph)
    (operands' : List (Nat × Nat)) : Prop where
  placed : Placed old graph graph'
  slots : List.Forall₂ (OperandSlot old graph' (graph.node ir).type) operands operands'
  phivalue : ∀ ir < old, (graph'.node ir).phivalue = (graph.node ir).phivalue
  used : ∀ c, graph.nextId ≤ c → c < graph'.nextId → ∃ operand ∈ operands', operand.2 = c

variable {bb ir : Nat} {operands operands' : List (Nat × Nat)}

theorem placed_insertBeforeLast (bound : old ≤ graph.nextId) {copied : Graph}
    (extends' : Extends graph copied) (nonempty : graph.irs bb ≠ []) :
    Placed old graph (copied.insertBeforeLast bb graph.nextId) where
  stable := ⟨extends'.grows, (extends'.stable bound).same, (extends'.stable bound).copies⟩
  left ir isOld := congrArg Ir.left (extends'.node ir (Nat.lt_of_lt_of_le isOld bound))
  right ir isOld := congrArg Ir.right (extends'.node ir (Nat.lt_of_lt_of_le isOld bound))
  blocks other := by
    unfold Graph.insertBeforeLast
    dsimp only
    rw [extends'.irs]
    by_cases here : other = bb
    · rw [here, Function.update_self]
      exact .insert nonempty bound
    · rw [Function.update_of_ne here]
      exact .same _

theorem mem_insertBeforeLast (graph : Graph) (bb c : Nat) :
    c ∈ (graph.insertBeforeLast bb c).irs bb := by
  unfold Graph.insertBeforeLast
  dsimp only
  rw [Function.update_self, Arrays.insert]
  exact List.mem_append_right _ List.mem_cons_self

theorem Operands.cons_same {child : Nat} (fits : (graph.node ir).type = (graph.node child).type)
    (isOld : child < old) (others : Operands old ir operands graph graph' operands') :
    Operands old ir ((bb, child) :: operands) graph graph' ((bb, child) :: operands') where
  placed := others.placed
  slots := .cons (.same ((others.placed.stable.same child isOld).type.trans fits.symm)) others.slots
  phivalue := others.phivalue
  used c above below := by
    obtain ⟨operand, member, isC⟩ := others.used c above below
    exact ⟨operand, List.mem_cons_of_mem _ member, isC⟩

theorem Operands.cons_copy {child : Nat} {type : Ty} {copied : Graph} (isOldIr : ir < old)
    (isOld : child < old) (bound : old ≤ graph.nextId) (nonempty : graph.irs bb ≠ [])
    (isType : (graph.node ir).type = some type) (extends' : Extends graph copied)
    (count : copied.nextId = graph.nextId + 1)
    (isCopy : IsCopy copied child graph.nextId type graph.nextId)
    (others : Operands old ir operands (copied.insertBeforeLast bb graph.nextId) graph' operands') :
    Operands old ir ((bb, child) :: operands) graph graph' ((bb, graph.nextId) :: operands') where
  placed := (placed_insertBeforeLast bound extends' nonempty).trans others.placed
  slots := by
    have first := placed_insertBeforeLast bound extends' nonempty
    have slots := others.slots
    rw [(first.stable.same ir isOldIr).type] at slots
    refine .cons (OperandSlot.placed ?_ others.placed isOld) slots
    refine .copy bound ?_ isType ⟨isCopy.exists_node⟩ (mem_insertBeforeLast copied bb _)
    change graph.nextId < copied.nextId
    omega
  phivalue other isOther := by
    rw [others.phivalue other isOther]
    exact congrArg Ir.phivalue (extends'.node other (Nat.lt_of_lt_of_le isOther bound))
  used c above below := by
    by_cases here : c = graph.nextId
    · exact ⟨_, List.mem_cons_self, here.symm⟩
    · have above' : copied.nextId ≤ c := by omega
      obtain ⟨operand, member, isC⟩ := others.used c above' below
      exact ⟨operand, List.mem_cons_of_mem _ member, isC⟩

/-- The operands of a phi get copies in the blocks that export them. -/
theorem insertOperandCopies_operands (isOld : ir < old) (bound : old ≤ graph.nextId)
    (formed : ∀ operand ∈ operands, operand.2 < old ∧ graph.irs operand.1 ≠ []) :
    insertOperandCopies ir operands graph = .error .fatal ∨
      ∃ graph' operands', insertOperandCopies ir operands graph = .ok (graph', operands') ∧
        Operands old ir operands graph graph' operands' := by
  induction operands generalizing graph with
  | nil =>
    refine Or.inr ⟨graph, [], rfl, .refl old graph, .nil, fun _ _ => rfl, fun c above below => ?_⟩
    exact absurd below (Nat.not_lt.2 above)
  | cons operand operands ih =>
    obtain ⟨childbb, child⟩ := operand
    obtain ⟨⟨isOldChild, nonempty⟩, formed⟩ := List.forall_mem_cons.1 formed
    rw [insertOperandCopies]
    by_cases fits : (graph.node ir).type = (graph.node child).type
    · rw [if_neg (not_not.2 fits)]
      obtain failed | ⟨graph', operands', result, others⟩ := ih bound formed
      · rw [failed]
        exact Or.inl rfl
      · rw [result]
        exact Or.inr ⟨graph', _, rfl, others.cons_same fits isOldChild⟩
    · rw [if_pos fits]
      obtain failed | ⟨type, copied, isType, result₁, extends', count, isCopy⟩ :=
        @newCopy_copies graph (graph.node ir).type _ child graph.nextId
          (Nat.lt_of_lt_of_le isOldChild bound) rfl
      · rw [failed]
        exact Or.inl rfl
      rw [result₁]
      dsimp only
      have placed := placed_insertBeforeLast bound extends' nonempty
      obtain failed | ⟨graph', operands', result, others⟩ :=
        ih (Nat.le_trans bound placed.stable.grows) fun operand member =>
          (formed operand member).imp_right (placed.blocks operand.1).ne_nil
      · rw [failed]
        exact Or.inl rfl
      · rw [result]
        exact Or.inr ⟨graph', _, rfl,
          others.cons_copy isOld isOldChild bound nonempty isType extends' count isCopy⟩

/-! ## The phis -/

structure Exported (old : Nat) (irs : List Nat) (graph graph' : Graph) : Prop where
  placed : Placed old graph graph'
  slots : ∀ ir ∈ irs, List.Forall₂ (OperandSlot old graph' (graph.node ir).type)
    (graph.node ir).phivalue (graph'.node ir).phivalue
  others : ∀ ir < old, ir ∉ irs → (graph'.node ir).phivalue = (graph.node ir).phivalue
  used : ∀ c, graph.nextId ≤ c → c < graph'.nextId →
    ∃ ir ∈ irs, ∃ operand ∈ (graph'.node ir).phivalue, operand.2 = c

def setPhivalue (graph : Graph) (ir : Nat) (phivalue : List (Nat × Nat)) : Graph :=
  { graph with
    node := Function.update graph.node ir { graph.node ir with phivalue := phivalue } }

theorem node_setPhivalue (graph : Graph) (ir : Nat) (phivalue : List (Nat × Nat)) :
    (setPhivalue graph ir phivalue).node ir = { graph.node ir with phivalue := phivalue } :=
  Function.update_self ir _ _

theorem node_setPhivalue_of_ne {other : Nat} (differs : other ≠ ir) (phivalue : List (Nat × Nat)) :
    (setPhivalue graph ir phivalue).node other = graph.node other :=
  Function.update_of_ne differs _ _

theorem placed_setPhivalue (isOld : ir < old) (phivalue : List (Nat × Nat)) :
    Placed old graph (setPhivalue graph ir phivalue) where
  stable := by
    refine ⟨Nat.le_refl _, fun other _ => ?_, fun c new _ => ?_⟩
    · by_cases here : other = ir
      · rw [here, node_setPhivalue]
        exact ⟨rfl, rfl, rfl, rfl⟩
      · rw [node_setPhivalue_of_ne here]
        exact .refl _
    · exact node_setPhivalue_of_ne (Nat.ne_of_gt (Nat.lt_of_lt_of_le isOld new)) phivalue
  left other _ := by
    by_cases here : other = ir
    · rw [here, node_setPhivalue]
    · rw [node_setPhivalue_of_ne here]
  right other _ := by
    by_cases here : other = ir
    · rw [here, node_setPhivalue]
    · rw [node_setPhivalue_of_ne here]
  blocks bb := .same (graph.irs bb)

theorem forall₂_placed {type : Option Ty}
    (slots : List.Forall₂ (OperandSlot old graph type) operands operands')
    (placed : Placed old graph graph') (isOld : ∀ operand ∈ operands, operand.2 < old) :
    List.Forall₂ (OperandSlot old graph' type) operands operands' := by
  induction slots with
  | nil => exact .nil
  | cons slot _ ih =>
    obtain ⟨here, others⟩ := List.forall_mem_cons.1 isOld
    exact .cons (slot.placed placed here) (ih others)

theorem Operands.exported (isOld : ir < old)
    (formed : ∀ operand ∈ (graph.node ir).phivalue, operand.2 < old)
    (operands : Operands old ir (graph.node ir).phivalue graph graph' operands') :
    Exported old [ir] graph (setPhivalue graph' ir operands') where
  placed := operands.placed.trans (placed_setPhivalue isOld operands')
  slots := by
    refine List.forall_mem_singleton.2 ?_
    rw [node_setPhivalue]
    exact forall₂_placed operands.slots (placed_setPhivalue isOld operands') formed
  others other isOther absent := by
    have differs : other ≠ ir := by simpa using absent
    rw [node_setPhivalue_of_ne differs, operands.phivalue other isOther]
  used c above below := by
    obtain ⟨operand, member, isC⟩ := operands.used c above below
    refine ⟨ir, List.mem_singleton_self ir, operand, ?_, isC⟩
    rwa [node_setPhivalue]

theorem Exported.cons {ir : Nat} {irs : List Nat} (first : Exported old [ir] graph graph')
    (others : Exported old irs graph' graph'') (new : ir ∉ irs) (isOldIr : ir < old)
    (isOld : ∀ ir ∈ irs, ir < old)
    (formed : ∀ operand ∈ (graph.node ir).phivalue, operand.2 < old) :
    Exported old (ir :: irs) graph graph'' where
  placed := first.placed.trans others.placed
  slots := by
    refine List.forall_mem_cons.2 ⟨?_, fun other member => ?_⟩
    · rw [others.others ir isOldIr new]
      exact forall₂_placed (first.slots ir (List.mem_singleton_self ir)) others.placed formed
    · have slots := others.slots other member
      rwa [first.others other (isOld other member) (not_mem_singleton new member),
        (first.placed.stable.same other (isOld other member)).type] at slots
  others other isOther absent := by
    rw [List.mem_cons, not_or] at absent
    rw [others.others other isOther absent.2, first.others other isOther (by simpa using absent.1)]
  used c above below := by
    by_cases early : c < graph'.nextId
    · obtain ⟨x, member, operand, isOperand, isC⟩ := first.used c above early
      obtain rfl := List.mem_singleton.1 member
      refine ⟨x, List.mem_cons_self, operand, ?_, isC⟩
      rwa [others.others x isOldIr new]
    · obtain ⟨x, member, used⟩ := others.used c (Nat.not_lt.1 early) below
      exact ⟨x, List.mem_cons_of_mem ir member, used⟩

/-- So do those of all phis. -/
theorem insertPhiCopies_exported {irs : List Nat} (nodup : irs.Nodup) (isOld : ∀ ir ∈ irs, ir < old)
    (bound : old ≤ graph.nextId)
    (formed : ∀ ir ∈ irs, ∀ operand ∈ (graph.node ir).phivalue,
      operand.2 < old ∧ graph.irs operand.1 ≠ []) :
    insertPhiCopies irs graph = .error .fatal ∨
      ∃ graph', insertPhiCopies irs graph = .ok graph' ∧ Exported old irs graph graph' := by
  induction irs generalizing graph with
  | nil =>
    refine Or.inr ⟨graph, rfl, .refl old graph, nofun, fun _ _ _ => rfl, fun c above below => ?_⟩
    exact absurd below (Nat.not_lt.2 above)
  | cons ir irs ih =>
    obtain ⟨new, nodup⟩ := List.nodup_cons.1 nodup
    obtain ⟨isOldIr, isOldIrs⟩ := List.forall_mem_cons.1 isOld
    obtain ⟨formedIr, formedIrs⟩ := List.forall_mem_cons.1 formed
    have operandsOld (operand : Nat × Nat) (member : operand ∈ (graph.node ir).phivalue) :
        operand.2 < old :=
      (formedIr operand member).1
    rw [insertPhiCopies]
    obtain failed | ⟨graph₁, operands', result₁, operands⟩ :=
      insertOperandCopies_operands isOldIr bound formedIr
    · rw [failed]
      exact Or.inl rfl
    rw [result₁]
    have first := operands.exported isOldIr operandsOld
    have formed' : ∀ other ∈ irs, ∀ operand ∈ ((setPhivalue graph₁ ir operands').node other).phivalue,
        operand.2 < old ∧ (setPhivalue graph₁ ir operands').irs operand.1 ≠ [] := by
      intro other member
      rw [first.others other (isOldIrs other member) (not_mem_singleton new member)]
      exact fun operand isOperand =>
        (formedIrs other member operand isOperand).imp_right (first.placed.blocks operand.1).ne_nil
    obtain failed | ⟨graph₂, result₂, others⟩ :=
      ih nodup isOldIrs (Nat.le_trans bound first.placed.stable.grows) formed'
    · exact Or.inl failed
    · exact Or.inr ⟨graph₂, result₂, first.cons others new isOldIr isOldIrs operandsOld⟩

end AckFormal.Mcg.OperandCopies
