import AckFormal.Mcg.ReturnValues

/-!
# What a search leaves

A search changes the size of a call and puts phis at the heads of blocks.  What it
has found is described over the instructions there were before, and over the
operands of the phis it has made; a phi whose operands are still being added is
older than all phis of the searches for them.
-/

namespace AckFormal.Mcg.ReturnSearch

open AckFormal.Data ReturnValues
open Function (update_of_ne update_self)

/-! ## States -/

def Fresh (st : State) : Prop := ∀ bb, ∀ ir ∈ st.irs bb, ir < st.nextId

theorem insertPhi_self (st : State) (bb size : Nat) :
    (insertPhi st bb size).irs bb = st.nextId :: st.irs bb :=
  update_self ..

theorem insertPhi_other (st : State) {bb other : Nat} (size : Nat) (differs : other ≠ bb) :
    (insertPhi st bb size).irs other = st.irs other :=
  update_of_ne differs ..

theorem insertPhi_phi (st : State) (bb size : Nat) :
    (insertPhi st bb size).ir st.nextId = ⟨.phi, size, none, []⟩ :=
  update_self ..

theorem insertPhi_node (st : State) (bb size : Nat) {ir : Nat} (old : ir < st.nextId) :
    (insertPhi st bb size).ir ir = st.ir ir :=
  update_of_ne (Nat.ne_of_lt old) ..

/-- Phis have been put at the heads of blocks; opcodes and operands of the nodes
there were are the same. -/
structure Grown (st st' : State) : Prop where
  next : st.nextId ≤ st'.nextId
  irs : ∀ bb, ∃ phis, st'.irs bb = phis ++ st.irs bb ∧ phis.Nodup ∧
    ∀ ir ∈ phis, st.nextId ≤ ir ∧ ir < st'.nextId ∧ (st'.ir ir).opcode = .phi
  opcode : ∀ ir < st.nextId, (st'.ir ir).opcode = (st.ir ir).opcode
  phivalue : ∀ ir < st.nextId, (st'.ir ir).phivalue = (st.ir ir).phivalue

namespace Grown

theorem refl (st : State) : Grown st st where
  next := Nat.le_refl _
  irs _ := ⟨[], rfl, List.nodup_nil, List.forall_mem_nil _⟩
  opcode _ _ := rfl
  phivalue _ _ := rfl

variable {st st' : State} {bb : Nat}

theorem trans {middle : State} (first : Grown st middle) (second : Grown middle st') :
    Grown st st' where
  next := Nat.le_trans first.next second.next
  irs bb := by
    obtain ⟨earlier, irsFirst, onceFirst, earlierPhis⟩ := first.irs bb
    obtain ⟨later, irsSecond, onceSecond, laterPhis⟩ := second.irs bb
    refine ⟨later ++ earlier, ?_, ?_, ?_⟩
    · rw [irsSecond, irsFirst, List.append_assoc]
    · refine onceSecond.append onceFirst ?_
      intro ir inLater inEarlier
      exact Nat.not_lt.mpr (laterPhis ir inLater).1 (earlierPhis ir inEarlier).2.1
    · rw [List.forall_mem_append]
      constructor
      · intro ir member
        obtain ⟨above, below, opcode⟩ := laterPhis ir member
        exact ⟨Nat.le_trans first.next above, below, opcode⟩
      · intro ir member
        obtain ⟨above, below, opcode⟩ := earlierPhis ir member
        exact ⟨above, Nat.lt_of_lt_of_le below second.next, (second.opcode ir below).trans opcode⟩
  opcode ir old :=
    (second.opcode ir (Nat.lt_of_lt_of_le old first.next)).trans (first.opcode ir old)
  phivalue ir old :=
    (second.phivalue ir (Nat.lt_of_lt_of_le old first.next)).trans (first.phivalue ir old)

section

variable (grown : Grown st st')
include grown

theorem fresh (fresh : Fresh st) : Fresh st' := by
  intro bb ir member
  obtain ⟨phis, irs, _, new⟩ := grown.irs bb
  rw [irs, List.mem_append] at member
  cases member with
  | inl member => exact (new ir member).2.1
  | inr member => exact Nat.lt_of_lt_of_le (fresh bb ir member) grown.next

theorem mem_old {ir : Nat} (member : ir ∈ st'.irs bb) (old : ir < st.nextId) :
    ir ∈ st.irs bb := by
  obtain ⟨phis, irs, _, new⟩ := grown.irs bb
  rw [irs, List.mem_append] at member
  refine member.resolve_left ?_
  intro inPhis
  exact Nat.not_lt.mpr (new ir inPhis).1 old

theorem mem_kept {ir : Nat} (member : ir ∈ st.irs bb) : ir ∈ st'.irs bb := by
  obtain ⟨phis, irs, _, _⟩ := grown.irs bb
  rw [irs]
  exact List.mem_append_right phis member

theorem listed (fresh : Fresh st) (listed : (st.irs bb).Nodup) :
    (st'.irs bb).Nodup := by
  obtain ⟨phis, irs, once, new⟩ := grown.irs bb
  rw [irs]
  refine once.append listed ?_
  intro ir inPhis old
  exact Nat.not_lt.mpr (new ir inPhis).1 (fresh bb ir old)

end

/-- A change of a node that keeps its opcode and operands. -/
theorem update (st : State) (here : Nat) (node : Ir) (opcode : node.opcode = (st.ir here).opcode)
    (phivalue : node.phivalue = (st.ir here).phivalue) :
    Grown st { st with ir := Function.update st.ir here node } where
  next := Nat.le_refl _
  irs _ := ⟨[], rfl, List.nodup_nil, List.forall_mem_nil _⟩
  opcode ir _ := by
    dsimp only
    by_cases same : ir = here
    · rw [same, update_self, opcode]
    · rw [update_of_ne same]
  phivalue ir _ := by
    dsimp only
    by_cases same : ir = here
    · rw [same, update_self, phivalue]
    · rw [update_of_ne same]

theorem insertPhi (st : State) (bb size : Nat) : Grown st (ReturnValues.insertPhi st bb size) where
  next := Nat.le_succ _
  irs other := by
    by_cases same : other = bb
    · subst same
      refine ⟨[st.nextId], insertPhi_self st other size, List.nodup_singleton _, ?_⟩
      rw [List.forall_mem_singleton, insertPhi_phi]
      exact ⟨Nat.le_refl _, Nat.lt_succ_self _, rfl⟩
    · exact ⟨[], insertPhi_other st size same, List.nodup_nil, List.forall_mem_nil _⟩
  opcode ir old := by rw [insertPhi_node st bb size old]
  phivalue ir old := by rw [insertPhi_node st bb size old]

theorem addOperand (grown : Grown st st') {phi : Nat} (new : st.nextId ≤ phi)
    (parentbb parentir : Nat) : Grown st (ReturnValues.addOperand st' phi parentbb parentir) where
  next := grown.next
  irs bb := by
    obtain ⟨phis, irs, once, facts⟩ := grown.irs bb
    refine ⟨phis, irs, once, ?_⟩
    intro ir member
    obtain ⟨above, below, opcode⟩ := facts ir member
    refine ⟨above, below, ?_⟩
    unfold ReturnValues.addOperand
    dsimp only
    by_cases same : ir = phi
    · rw [same, update_self, ← same, opcode]
    · rw [update_of_ne same, opcode]
  opcode ir old := by
    unfold ReturnValues.addOperand
    dsimp only
    rw [update_of_ne (Nat.ne_of_lt (Nat.lt_of_lt_of_le old new)), grown.opcode ir old]
  phivalue ir old := by
    unfold ReturnValues.addOperand
    dsimp only
    rw [update_of_ne (Nat.ne_of_lt (Nat.lt_of_lt_of_le old new)), grown.phivalue ir old]

end Grown

structure Later (first : Nat) (st st' : State) : Prop where
  next : st.nextId ≤ st'.nextId
  kept : ∀ bb ir, ir ∈ st.irs bb → ir ∈ st'.irs bb
  old : ∀ bb ir, ir ∈ st'.irs bb → ir < st.nextId → ir ∈ st.irs bb
  opcode : ∀ ir, first ≤ ir → ir < st.nextId → (st'.ir ir).opcode = (st.ir ir).opcode
  phivalue : ∀ ir, first ≤ ir → ir < st.nextId → (st'.ir ir).phivalue = (st.ir ir).phivalue

variable {st : State}

theorem Grown.later {st' : State} (grown : Grown st st') (first : Nat) : Later first st st' where
  next := grown.next
  kept _ _ := grown.mem_kept
  old _ _ := grown.mem_old
  opcode ir _ := grown.opcode ir
  phivalue ir _ := grown.phivalue ir

theorem Later.trans {first : Nat} {middle st' : State} (before : Later first st middle)
    (after : Later first middle st') : Later first st st' where
  next := Nat.le_trans before.next after.next
  kept bb ir member := after.kept bb ir (before.kept bb ir member)
  old bb ir member below :=
    before.old bb ir (after.old bb ir member (Nat.lt_of_lt_of_le below before.next)) below
  opcode ir above below :=
    (after.opcode ir above (Nat.lt_of_lt_of_le below before.next)).trans
      (before.opcode ir above below)
  phivalue ir above below :=
    (after.phivalue ir above (Nat.lt_of_lt_of_le below before.next)).trans
      (before.phivalue ir above below)

theorem later_addOperand (st : State) (phi parentbb parentir : Nat) :
    Later (phi + 1) st (addOperand st phi parentbb parentir) where
  next := Nat.le_refl _
  kept _ _ member := member
  old _ _ member _ := member
  opcode ir above _ := by
    unfold addOperand
    dsimp only
    rw [update_of_ne (Nat.ne_of_gt above)]
  phivalue ir above _ := by
    unfold addOperand
    dsimp only
    rw [update_of_ne (Nat.ne_of_gt above)]

/-! ## Results -/

def operands (found : List (Nat × Nat)) : List (Nat × Nat) :=
  found.foldl (fun map result => Pmap.add map result.1 result.2) []

/-- What a search in `bb` has found, with `executed` the instructions it looks at there.
The phis are numbered from `first` on. -/
inductive Searched (prevs : Nat → List Nat) (base : State) (first : Nat) (st : State) :
    Nat → List Nat → Nat → Nat → Prop where
  | call {bb here : Nat} {executed before after : List Nat}
      (split : executed = before ++ here :: after) (isCall : (base.ir here).opcode = .call)
      (preserving : Preserving base after) : Searched prevs base first st bb executed bb here
  | single {bb prev callbb callir : Nat} {executed : List Nat}
      (preserving : Preserving base executed) (edge : prevs bb = [prev])
      (rest : Searched prevs base first st prev (base.irs prev) callbb callir) :
      Searched prevs base first st bb executed callbb callir
  | phi {bb phi : Nat} {executed : List Nat} (found : Nat → Nat × Nat)
      (preserving : Preserving base executed) (several : (prevs bb).length ≠ 1)
      (inserted : phi ∈ st.irs bb) (above : first ≤ phi) (below : phi < st.nextId)
      (opcode : (st.ir phi).opcode = .phi)
      (phivalue : (st.ir phi).phivalue = operands ((prevs bb).map found))
      (rest : ∀ prev ∈ prevs bb,
        Searched prevs base first st prev (base.irs prev) (found prev).1 (found prev).2) :
      Searched prevs base first st bb executed bb phi

structure Built (prevs : Nat → List Nat) (base : State) (first : Nat) (st : State)
    (x phi : Nat) : Prop where
  several : (prevs x).length ≠ 1
  operands : ∃ found : Nat → Nat × Nat, (st.ir phi).phivalue = operands ((prevs x).map found) ∧
    ∀ prev ∈ prevs x, Searched prevs base first st prev (base.irs prev) (found prev).1 (found prev).2

section

variable {prevs : Nat → List Nat} {base st st' : State} {first : Nat}

theorem Searched.mono {less : Nat} (le : less ≤ first) {bb callbb callir : Nat}
    {executed : List Nat} (searched : Searched prevs base first st bb executed callbb callir) :
    Searched prevs base less st bb executed callbb callir := by
  induction searched with
  | call split isCall preserving => exact .call split isCall preserving
  | single preserving edge _ ih => exact .single preserving edge ih
  | phi found preserving several inserted above below opcode phivalue _ ih =>
    exact .phi found preserving several inserted (Nat.le_trans le above) below opcode phivalue ih

theorem Searched.later (later : Later first st st') {bb callbb callir : Nat}
    {executed : List Nat} (searched : Searched prevs base first st bb executed callbb callir) :
    Searched prevs base first st' bb executed callbb callir := by
  induction searched with
  | call split isCall preserving => exact .call split isCall preserving
  | single preserving edge _ ih => exact .single preserving edge ih
  | phi found preserving several inserted above below opcode phivalue _ ih =>
    exact .phi found preserving several (later.kept _ _ inserted) above
      (Nat.lt_of_lt_of_le below later.next) ((later.opcode _ above below).trans opcode)
      ((later.phivalue _ above below).trans phivalue) ih

theorem Built.mono {less : Nat} (le : less ≤ first) {x phi : Nat}
    (built : Built prevs base first st x phi) : Built prevs base less st x phi := by
  obtain ⟨several, found, phivalue, rest⟩ := built
  exact ⟨several, found, phivalue, fun prev member => (rest prev member).mono le⟩

theorem Built.later (later : Later first st st') {x phi : Nat} (above : first ≤ phi)
    (below : phi < st.nextId) (built : Built prevs base first st x phi) :
    Built prevs base first st' x phi := by
  obtain ⟨several, found, phivalue, rest⟩ := built
  exact ⟨several, found, (later.phivalue phi above below).trans phivalue,
    fun prev member => (rest prev member).later later⟩

end

/-! ## The loop over the instructions -/

theorem scan_append (ir : Nat → Ir) (front rest : List Nat) :
    scan ir (front ++ rest) =
      match scan ir front with
      | .top => scan ir rest
      | ended => ended := by
  induction front with
  | nil => rfl
  | cons here front ih =>
    rw [List.cons_append, scan, scan]
    split
    next => rfl
    next => exact ih
    next => exact ih
    next => exact ih
    next => rfl

theorem scan_top {visited : List Nat} (top : scan st.ir visited = .top) :
    Preserving st visited := by
  induction visited with
  | nil => exact List.forall_mem_nil _
  | cons here visited ih =>
    rw [scan] at top
    unfold Preserving at ih ⊢
    rw [List.forall_mem_cons]
    split at top
    next => cases top
    next opcode => exact ⟨Or.inl opcode, ih top⟩
    next opcode => exact ⟨Or.inr (Or.inl opcode), ih top⟩
    next opcode => exact ⟨Or.inr (Or.inr opcode), ih top⟩
    next => cases top

theorem scan_found {visited : List Nat} {here : Nat} (found : scan st.ir visited = .found here) :
    ∃ after before, visited = after ++ here :: before ∧ (st.ir here).opcode = .call ∧
      Preserving st after := by
  induction visited with
  | nil => cases found
  | cons other visited ih =>
    have further (preserves : (st.ir other).opcode = .stackadjust ∨
        (st.ir other).opcode = .getret ∨ (st.ir other).opcode = .jump)
        (found : scan st.ir visited = .found here) :
        ∃ after before, other :: visited = after ++ here :: before ∧
          (st.ir here).opcode = .call ∧ Preserving st after := by
      obtain ⟨after, before, split, isCall, preserving⟩ := ih found
      refine ⟨other :: after, before, ?_, isCall, List.forall_mem_cons.mpr ⟨preserves, preserving⟩⟩
      rw [split, List.cons_append]
    rw [scan] at found
    split at found
    next opcode =>
      cases found
      exact ⟨[], visited, rfl, opcode, List.forall_mem_nil _⟩
    next opcode => exact further (Or.inl opcode) found
    next opcode => exact further (Or.inr (Or.inl opcode)) found
    next opcode => exact further (Or.inr (Or.inr opcode)) found
    next => cases found

theorem scan_phis {phis : List Nat} (opcode : ∀ ir ∈ phis, (st.ir ir).opcode = .phi) :
    scan st.ir phis.reverse = .top ∧ phis = [] ∨ scan st.ir phis.reverse = .corrupted := by
  cases shape : phis.reverse with
  | nil => exact Or.inl ⟨rfl, List.reverse_eq_nil_iff.mp shape⟩
  | cons here rest =>
    have isPhi : (st.ir here).opcode = .phi := by
      apply opcode
      rw [← List.mem_reverse, shape]
      exact List.mem_cons_self
    refine Or.inr ?_
    rw [scan, isPhi]

/-! ## find_call -/

structure Outcome (prevs : Nat → List Nat) (base st st' : State) (bb : Nat) (executed : List Nat)
    (callbb callir : Nat) : Prop where
  grown : Grown st st'
  searched : Searched prevs base st.nextId st' bb executed callbb callir
  built : ∀ x phi, phi ∈ st'.irs x → st.nextId ≤ phi →
    Built prevs base st.nextId st' x phi ∧ Reaches prevs base bb executed x

/-- The search with some fuel, in every state that has grown from `base`. -/
def Correct (prevs : Nat → List Nat) (base : State) (fuel : Nat) : Prop :=
  ∀ st bb index lfr phis executed st' callbb callir, Grown base st →
    upTo (st.irs bb) index = phis ++ executed → (∀ ir ∈ phis, (st.ir ir).opcode = .phi) →
    (∀ ir ∈ executed, ir ∈ base.irs bb) →
    findCall prevs fuel st bb index lfr = .ok (st', callbb, callir) →
    Outcome prevs base st st' bb executed callbb callir

variable {prevs : Nat → List Nat} {base : State}

theorem Correct.whole {fuel : Nat} (correct : Correct prevs base fuel) {st st' : State}
    {bb lfr callbb callir : Nat} (grown : Grown base st)
    (run : findCall prevs fuel st bb none lfr = .ok (st', callbb, callir)) :
    Outcome prevs base st st' bb (base.irs bb) callbb callir := by
  obtain ⟨phis, irs, _, new⟩ := grown.irs bb
  exact correct st bb none lfr phis (base.irs bb) st' callbb callir grown irs
    (fun ir member => (new ir member).2.2) (fun _ member => member) run

/-- What the loop over the predecessors leaves; `phi` is the phi that is being
made. -/
structure Operands (prevs : Nat → List Nat) (base st st' : State) (phi : Nat) (list : List Nat)
    (found : Nat → Nat × Nat) : Prop where
  later : Later (phi + 1) st st'
  opcode : (st'.ir phi).opcode = (st.ir phi).opcode
  phivalue : (st'.ir phi).phivalue =
    (list.map found).foldl (fun map result => Pmap.add map result.1 result.2) (st.ir phi).phivalue
  searched : ∀ prev ∈ list,
    Searched prevs base (phi + 1) st' prev (base.irs prev) (found prev).1 (found prev).2
  built : ∀ x other, other ∈ st'.irs x → st.nextId ≤ other →
    Built prevs base (phi + 1) st' x other ∧
      ∃ prev ∈ list, Reaches prevs base prev (base.irs prev) x

/-- The loop over the predecessors gives the phi an operand for each of them. -/
theorem addOperands_spec {fuel : Nat} (correct : Correct prevs base fuel) (fresh : Fresh base)
    {phi : Nat} {list : List Nat} (once : list.Nodup) {origin st st' : State}
    (grown : Grown base st) (grownOrigin : Grown origin st) (baseOld : base.nextId ≤ phi)
    (new : origin.nextId ≤ phi) (made : phi < st.nextId)
    (run : addOperands (fun st prev => findCall prevs fuel st prev none phi) phi list st =
      .ok st') :
    Grown origin st' ∧ ∃ found, Operands prevs base st st' phi list found := by
  induction list generalizing st with
  | nil =>
    cases run
    refine ⟨grownOrigin, fun _ => (0, 0), (Grown.refl st').later (phi + 1), rfl, rfl,
      List.forall_mem_nil _, ?_⟩
    intro x other member above
    exact absurd (grown.fresh fresh x other member) (Nat.not_lt.mpr above)
  | cons prev list ih =>
    rw [addOperands] at run
    split at run
    next => cases run
    next middle parentbb parentir search =>
      obtain ⟨absent, onceRest⟩ := List.nodup_cons.mp once
      have outcome := correct.whole grown search
      have added : Later (phi + 1) middle (addOperand middle phi parentbb parentir) :=
        later_addOperand middle phi parentbb parentir
      obtain ⟨grownFinal, found, rest⟩ := ih onceRest
        ((grown.trans outcome.grown).addOperand baseOld parentbb parentir)
        ((grownOrigin.trans outcome.grown).addOperand new parentbb parentir)
        (Nat.lt_of_lt_of_le made outcome.grown.next) run
      have same : ∀ other ∈ list,
          Function.update found prev (parentbb, parentir) other = found other := by
        intro other member
        apply update_of_ne
        rintro rfl
        exact absent member
      have final : Later (phi + 1) middle st' := added.trans rest.later
      refine ⟨grownFinal, Function.update found prev (parentbb, parentir), ?_, ?_, ?_, ?_, ?_⟩
      · exact (outcome.grown.later (phi + 1)).trans final
      · rw [rest.opcode, ← outcome.grown.opcode phi made, addOperand]
        dsimp only
        rw [update_self]
      · rw [rest.phivalue, List.map_cons, List.map_congr_left same, update_self,
          List.foldl_cons, ← outcome.grown.phivalue phi made, addOperand]
        dsimp only
        rw [update_self]
      · rw [List.forall_mem_cons, update_self]
        constructor
        · exact (outcome.searched.mono made).later final
        · intro other member
          rw [same other member]
          exact rest.searched other member
      · intro x other member above
        by_cases early : other < middle.nextId
        · have inMiddle := final.old x other member early
          obtain ⟨built, reaches⟩ := outcome.built x other inMiddle above
          refine ⟨(built.mono made).later final (Nat.le_trans made above) early, ?_⟩
          exact ⟨prev, List.mem_cons_self, reaches⟩
        · obtain ⟨built, source, inList, reaches⟩ :=
            rest.built x other member (Nat.le_of_not_lt early)
          exact ⟨built, source, List.mem_cons_of_mem prev inList, reaches⟩

/-- With any fuel the search leaves what is asked of it, by induction on the fuel. -/
theorem findCall_correct (fresh : Fresh base) (once : ∀ bb, (prevs bb).Nodup) (fuel : Nat) :
    Correct prevs base fuel := by
  induction fuel with
  | zero =>
    intro st bb index lfr phis executed st' callbb callir _ _ _ _ run
    cases run
  | succ fuel ih =>
    intro st bb index lfr phis executed st' callbb callir grown visited opcode inside run
    have freshSt := grown.fresh fresh
    have same (ir : Nat) (member : ir ∈ executed) : (st.ir ir).opcode = (base.ir ir).opcode :=
      grown.opcode ir (fresh bb ir (inside ir member))
    rw [findCall, visited, List.reverse_append, scan_append] at run
    cases ended : scan st.ir executed.reverse with
    | corrupted =>
      rw [ended] at run
      cases run
    | found here =>
      rw [ended] at run
      cases run
      obtain ⟨after, before, split, isCall, preserving⟩ := scan_found ended
      have shape : executed = before.reverse ++ callir :: after.reverse := by
        rw [← List.reverse_reverse executed, split]
        simp
      refine ⟨Grown.update st callir _ rfl rfl, ?_, ?_⟩
      · refine Searched.call shape ?_ ?_
        · rw [← same callir]
          · exact isCall
          · rw [shape]
            exact List.mem_append_right _ List.mem_cons_self
        · intro ir member
          rw [← same ir]
          · exact preserving ir (List.mem_reverse.mp member)
          · rw [shape]
            exact List.mem_append_right _ (List.mem_cons_of_mem callir member)
      · intro x phi member above
        exact absurd (freshSt x phi member) (Nat.not_lt.mpr above)
    | top =>
      have preserving : Preserving base executed := by
        intro ir member
        rw [← same ir member]
        exact scan_top ended ir (List.mem_reverse.mpr member)
      rw [ended] at run
      rcases scan_phis opcode with ⟨top, _⟩ | corrupted
      · rw [top] at run
        dsimp only at run
        split at run
        next prev edge =>
          have outcome := ih.whole grown run
          refine ⟨outcome.grown, .single preserving edge outcome.searched, ?_⟩
          intro x phi member above
          obtain ⟨built, reaches⟩ := outcome.built x phi member above
          refine ⟨built, .up preserving ?_ reaches⟩
          rw [edge]
          exact List.mem_singleton.mpr rfl
        next several =>
          split at run
          next => cases run
          next final loop =>
            cases run
            have length : (prevs bb).length ≠ 1 := by
              intro one
              obtain ⟨prev, edge⟩ := List.length_eq_one_iff.mp one
              exact several prev edge
            have placed : st.nextId ∈ (insertPhi st bb (st.ir lfr).size).irs bb := by
              rw [insertPhi_self]
              exact List.mem_cons_self
            have empty : ((insertPhi st bb (st.ir lfr).size).ir st.nextId).phivalue = [] := by
              rw [insertPhi_phi]
            have isPhi : ((insertPhi st bb (st.ir lfr).size).ir st.nextId).opcode = .phi := by
              rw [insertPhi_phi]
            have inserted := Grown.insertPhi st bb (st.ir lfr).size
            obtain ⟨grownFinal, found, rest⟩ := addOperands_spec ih fresh (once bb)
              (grown.trans inserted) inserted grown.next (Nat.le_refl _) (Nat.lt_succ_self _) loop
            have searched (prev : Nat) (member : prev ∈ prevs bb) :
                Searched prevs base st.nextId st' prev (base.irs prev) (found prev).1
                  (found prev).2 :=
              (rest.searched prev member).mono (Nat.le_succ _)
            have phivalue : (st'.ir st.nextId).phivalue = operands ((prevs bb).map found) := by
              rw [rest.phivalue, empty]
              rfl
            refine ⟨grownFinal, ?_, ?_⟩
            · exact .phi found preserving length (rest.later.kept bb _ placed) (Nat.le_refl _)
                (Nat.lt_of_lt_of_le (Nat.lt_succ_self _) rest.later.next)
                (rest.opcode.trans isPhi) phivalue searched
            · intro x phi member above
              rcases Nat.eq_or_lt_of_le above with rfl | later
              · -- the new phi is in no other block
                have early := rest.later.old x st.nextId member (Nat.lt_succ_self _)
                have here : x = bb := by
                  by_contra elsewhere
                  rw [insertPhi_other st _ elsewhere] at early
                  exact Nat.lt_irrefl _ (freshSt x _ early)
                rw [here]
                exact ⟨⟨length, found, phivalue, searched⟩, .here preserving⟩
              · obtain ⟨built, prev, edge, reaches⟩ := rest.built x phi member later
                exact ⟨built.mono (Nat.le_succ _), .up preserving edge reaches⟩
      · rw [corrupted] at run
        cases run

end AckFormal.Mcg.ReturnSearch
