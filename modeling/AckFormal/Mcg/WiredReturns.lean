import AckFormal.Mcg.ReturnPhis

/-!
# When the wired values are right

The search keys an operand by the block in which it has ended.  It is that of a
predecessor exactly where each predecessor of a phi has a call, or is not left
through a single predecessor of its own.
-/

namespace AckFormal.Mcg.WiredReturns

open AckFormal.Data ReturnValues ReturnSearch ReturnPhis

variable {prevs : Nat → List Nat} {base st st' : State}

/-! ## The `lfr` -/

variable {lfr bb : Nat} {executed : List Nat}

theorem split_before {here : Nat} {before after : List Nat}
    (split : executed ++ [lfr] = before ++ here :: after) (differs : here ≠ lfr) :
    ∃ rest, after = rest ++ [lfr] ∧ executed = before ++ here :: rest := by
  rcases List.eq_nil_or_concat after with rfl | ⟨rest, last, rfl⟩
  · cases (List.append_inj' split rfl).2
    exact absurd rfl differs
  · rw [List.concat_eq_append] at split ⊢
    rw [← List.cons_append, ← List.append_assoc] at split
    obtain ⟨whole, same⟩ := List.append_inj' split rfl
    cases same
    exact ⟨rest, rfl, whole⟩

/-- The `lfr` itself, the last instruction the search looks at, changes nothing. -/
theorem searched_before {first callbb callir : Nat} (getret : (base.ir lfr).opcode = .getret)
    (searched : Searched prevs base first st bb (executed ++ [lfr]) callbb callir) :
    Searched prevs base first st bb executed callbb callir := by
  have sooner {executed : List Nat} (preserving : Preserving base (executed ++ [lfr])) :
      Preserving base executed :=
    fun ir member => preserving ir (List.mem_append_left [lfr] member)
  cases searched with
  | call split isCall preserving =>
    obtain ⟨rest, rfl, whole⟩ := split_before split (by
      rintro rfl
      rw [getret] at isCall
      cases isCall)
    exact .call whole isCall (sooner preserving)
  | single preserving edge rest => exact .single (sooner preserving) edge rest
  | phi found preserving several inserted above below opcode phivalue rest =>
    exact .phi found (sooner preserving) several inserted above below opcode phivalue rest

theorem preserving_after (getret : (base.ir lfr).opcode = .getret)
    (preserving : Preserving base executed) : Preserving base (executed ++ [lfr]) := by
  unfold Preserving at preserving ⊢
  rw [List.forall_mem_append, List.forall_mem_singleton]
  exact ⟨preserving, Or.inr (Or.inl getret)⟩

theorem reaches_after {x : Nat} (getret : (base.ir lfr).opcode = .getret)
    (reaches : Reaches prevs base bb executed x) : Reaches prevs base bb (executed ++ [lfr]) x := by
  cases reaches with
  | here preserving => exact .here (preserving_after getret preserving)
  | up preserving edge rest => exact .up (preserving_after getret preserving) edge rest

def wire (st : State) (lfr callir : Nat) : State :=
  { st with ir := Function.update st.ir lfr
              { st.ir lfr with left := some callir, opcode := .nop } }

theorem wire_self (st : State) (lfr callir : Nat) :
    (wire st lfr callir).ir lfr = { st.ir lfr with left := some callir, opcode := .nop } :=
  Function.update_self ..

theorem wire_other (st : State) {ir : Nat} (callir : Nat) (differs : ir ≠ lfr) :
    (wire st lfr callir).ir ir = st.ir ir :=
  Function.update_of_ne differs ..

/-- The change of the `lfr` into a node without effect, after a search. -/
theorem final_wire {callbb callir : Nat}
    (outcome : Outcome prevs base base st bb executed callbb callir) (old : lfr < base.nextId)
    (getret : (base.ir lfr).opcode = .getret) :
    Later base.nextId st (wire st lfr callir) ∧ Final prevs base (wire st lfr callir) := by
  have new (ir : Nat) (above : base.nextId ≤ ir) : (wire st lfr callir).ir ir = st.ir ir :=
    wire_other st callir (Nat.ne_of_gt (Nat.lt_of_lt_of_le old above))
  refine ⟨⟨Nat.le_refl _, fun _ _ member => member, fun _ _ member _ => member, ?_, ?_⟩, ?_, ?_, ?_⟩
  · intro ir above _
    rw [new ir above]
  · intro ir above _
    rw [new ir above]
  · intro ir below
    by_cases same : ir = lfr
    · rw [same, wire_self, getret]
      exact iff_of_false nofun nofun
    · rw [wire_other st callir same, outcome.grown.opcode ir below]
  · intro other
    obtain ⟨phis, irs, _, facts⟩ := outcome.grown.irs other
    refine ⟨phis, irs, ?_⟩
    intro ir member
    obtain ⟨above, _, opcode⟩ := facts ir member
    refine ⟨above, ?_⟩
    rw [new ir above, opcode]
  · intro x phi member above
    exact (outcome.built x phi member above).1.several

/-! ## Steps of the pass -/

/-- The nodes in the blocks have been made and are listed once in their block; the
predecessors of a block are different. -/
structure WellFormed (prevs : Nat → List Nat) (st : State) : Prop where
  fresh : Fresh st
  listed : ∀ bb, (st.irs bb).Nodup
  once : ∀ bb, (prevs bb).Nodup

structure Lfr (st : State) (bb index lfr : Nat) : Prop where
  place : (st.irs bb)[index]? = some lfr
  getret : (st.ir lfr).opcode = .getret

section

variable {bb index lfr : Nat}

theorem Lfr.mem (isLfr : Lfr st bb index lfr) : lfr ∈ st.irs bb :=
  List.mem_of_getElem? isLfr.place

theorem Lfr.upTo_eq (isLfr : Lfr st bb index lfr) :
    upTo (st.irs bb) (some index) = (st.irs bb).take index ++ [lfr] := by
  rw [upTo, List.take_add_one, isLfr.place]
  rfl

/-- The instructions before the `lfr`, in a block that has got new ones in front. -/
theorem Lfr.takeWhile_eq (isLfr : Lfr st bb index lfr) (listed : (st.irs bb).Nodup)
    {front : List Nat} (new : lfr ∉ front) :
    ((front ++ st.irs bb).takeWhile fun ir => decide (ir ≠ lfr)) =
      front ++ (st.irs bb).take index := by
  obtain ⟨short, here⟩ := List.getElem?_eq_some_iff.mp isLfr.place
  have whole : st.irs bb = (st.irs bb).take index ++ lfr :: (st.irs bb).drop (index + 1) := by
    rw [← here, ← List.drop_eq_getElem_cons short, List.take_append_drop]
  have notFront : ∀ ir ∈ front, decide (ir ≠ lfr) = true := by
    intro ir member
    rw [decide_eq_true_iff]
    rintro rfl
    exact new member
  have notBefore : ∀ ir ∈ (st.irs bb).take index, decide (ir ≠ lfr) = true := by
    intro ir earlier
    rw [decide_eq_true_iff]
    rw [whole, List.nodup_append] at listed
    exact listed.2.2 ir earlier lfr List.mem_cons_self
  rw [List.takeWhile_append_of_pos notFront]
  conv_lhs => rw [whole]
  rw [List.takeWhile_append_of_pos notBefore, List.takeWhile_cons_of_neg, List.append_nil]
  rw [decide_eq_true_iff]
  exact fun differs => differs rfl

variable {fuel : Nat}

variable (wellFormed : WellFormed prevs st) (isLfr : Lfr st bb index lfr)
  (run : wireUpIr prevs fuel st bb index lfr = .ok st')
include wellFormed isLfr run

theorem wireUpIr_outcome :
    ∃ found callbb callir, st' = wire found lfr callir ∧
      Outcome prevs st st found bb ((st.irs bb).take index ++ [lfr]) callbb callir := by
  have inside : ∀ ir ∈ (st.irs bb).take index ++ [lfr], ir ∈ st.irs bb := by
    intro ir member
    rw [← isLfr.upTo_eq] at member
    exact List.mem_of_mem_take member
  rw [wireUpIr] at run
  split at run
  next => cases run
  next found callbb callir search =>
    cases run
    refine ⟨found, callbb, callir, rfl, ?_⟩
    exact findCall_correct wellFormed.fresh wellFormed.once fuel st bb (some index) lfr [] _ found
      callbb callir (Grown.refl st) isLfr.upTo_eq (List.forall_mem_nil _) inside search

/-- What a step leaves for the others: the state is well formed, and the phis there
were have their operands. -/
theorem wireUpIr_kept :
    WellFormed prevs st' ∧ st.nextId ≤ st'.nextId ∧
      ∀ ir < st.nextId, (st'.ir ir).phivalue = (st.ir ir).phivalue := by
  obtain ⟨found, callbb, callir, rfl, outcome⟩ := wireUpIr_outcome wellFormed isLfr run
  refine ⟨⟨outcome.grown.fresh wellFormed.fresh, ?_, wellFormed.once⟩, outcome.grown.next, ?_⟩
  · intro other
    exact outcome.grown.listed wellFormed.fresh (wellFormed.listed other)
  · intro ir old
    rw [← outcome.grown.phivalue ir old]
    by_cases same : ir = lfr
    · rw [same, wire_self]
    · rw [wire_other found callir same]

/-- An `lfr` is wired up just when no predecessor of a new phi has been gone through. -/
theorem wiredUp_iff :
    WiredUp prevs st st' bb lfr ↔ DirectCalls prevs st bb index := by
  have fresh := wellFormed.fresh
  have old : lfr < st.nextId := fresh bb lfr isLfr.mem
  obtain ⟨found, callbb, callir, rfl, outcome⟩ := wireUpIr_outcome wellFormed isLfr run
  obtain ⟨later, final⟩ := final_wire outcome old isLfr.getret
  constructor
  · intro wiredUp x reaches several prev edge preserving one
    rw [isLfr.upTo_eq] at reaches
    obtain ⟨phi, inserted, above, built⟩ :=
      Searched.phi_of_reaches reaches outcome.searched several
    have below := outcome.grown.fresh fresh x phi inserted
    have notOld : phi ∉ st.irs x := fun before => Nat.not_lt.mpr above (fresh x phi before)
    exact Built.not_keys (built.later later above below) edge preserving one
      (wiredUp.keyed x phi inserted notOld)
  · intro direct
    have stops : Stops prevs st bb ((st.irs bb).take index ++ [lfr]) := by
      intro x reaches
      rw [← isLfr.upTo_eq] at reaches
      exact direct x reaches
    refine ⟨?_, callir, ?_, ?_⟩
    · intro x phi inserted notOld
      have above : st.nextId ≤ phi := by
        apply Nat.le_of_not_lt
        intro before
        exact notOld (outcome.grown.mem_old inserted before)
      have below := outcome.grown.fresh fresh x phi inserted
      obtain ⟨built, reaches⟩ := outcome.built x phi inserted above
      exact Built.keys (wellFormed.once x) (built.later later above below)
        (stops x reaches built.several)
    · rw [wire_self]
    · intro path isPath event last
      obtain ⟨front, irs, new⟩ := final.front fresh bb
      have notFront : lfr ∉ front := by
        intro inFront
        exact Nat.not_lt.mpr (new.inside lfr inFront).2 old
      have executed : (((wire found lfr callir).irs bb).takeWhile fun ir => decide (ir ≠ lfr)) =
          front ++ (st.irs bb).take index := by
        have same : (wire found lfr callir).irs bb = front ++ st.irs bb := irs
        rw [same]
        exact isLfr.takeWhile_eq (wellFormed.listed bb) notFront
      rw [executed] at last ⊢
      refine Searched.result_eq final fresh wellFormed.once
        (searched_before isLfr.getret (outcome.searched.later later)) ?_ ?_ new isPath last
      · exact fun x reaches => stops x (reaches_after isLfr.getret reaches)
      · exact fun ir member => List.mem_of_mem_take member

end

/-! ## Runs of the pass -/

/-- Steps of the pass that wire up an `lfr` each, where a condition on the state and
the place of the `lfr` holds. -/
inductive Rewires (prevs : Nat → List Nat) (holds : State → Nat → Nat → Prop) :
    State → State → Prop where
  | none (st : State) : Rewires prevs holds st st
  | step {st middle st' : State} (fuel : Nat) {bb index lfr : Nat} (isLfr : Lfr st bb index lfr)
      (condition : holds st bb index)
      (run : wireUpIr prevs fuel st bb index lfr = .ok middle)
      (rest : Rewires prevs holds middle st') : Rewires prevs holds st st'

namespace Rewires

variable {holds : State → Nat → Nat → Prop}

theorem trans {middle : State} (first : Rewires prevs holds st middle)
    (second : Rewires prevs holds middle st') : Rewires prevs holds st st' := by
  induction first with
  | none => exact second
  | step fuel isLfr condition run _ ih => exact .step fuel isLfr condition run (ih second)

theorem wellFormed (rewires : Rewires prevs holds st st') (wellFormed : WellFormed prevs st) :
    WellFormed prevs st' := by
  induction rewires with
  | none => exact wellFormed
  | step fuel isLfr _ run _ ih => exact ih (wireUpIr_kept wellFormed isLfr run).1

theorem phivalue (rewires : Rewires prevs holds st st') (wellFormed : WellFormed prevs st) :
    ∀ ir < st.nextId, (st'.ir ir).phivalue = (st.ir ir).phivalue := by
  induction rewires with
  | none => exact fun _ _ => rfl
  | step fuel isLfr _ run _ ih =>
    obtain ⟨kept, next, same⟩ := wireUpIr_kept wellFormed isLfr run
    intro ir old
    rw [ih kept ir (Nat.lt_of_lt_of_le old next), same ir old]

/-- Where all steps meet the condition all phis are keyed by the predecessors, at the
end of the run. -/
theorem keyed (rewires : Rewires prevs (DirectCalls prevs) st st')
    (wellFormed : WellFormed prevs st) :
    ∀ x, ∀ phi ∈ st'.irs x, phi ∉ st.irs x →
      ((st'.ir phi).phivalue.map Prod.fst).Perm (prevs x) := by
  induction rewires with
  | none => exact fun x phi inserted notOld => absurd inserted notOld
  | @step st middle st' fuel bb index lfr isLfr direct run rest ih =>
    obtain ⟨kept, _, _⟩ := wireUpIr_kept wellFormed isLfr run
    intro x phi inserted notOld
    by_cases early : phi ∈ middle.irs x
    · rw [rest.phivalue kept phi (kept.fresh x phi early)]
      exact ((wiredUp_iff wellFormed isLfr run).mpr direct).keyed x phi early notOld
    · exact ih kept x phi inserted early

end Rewires

theorem wireUpBlock_rewires {fuel bb j : Nat}
    (run : wireUpBlock prevs bb fuel j st = .ok st') :
    Rewires prevs (fun _ _ _ => True) st st' := by
  induction fuel generalizing j st with
  | zero => cases run
  | succ fuel ih =>
    rw [wireUpBlock] at run
    split at run
    next =>
      cases run
      exact .none _
    next here place =>
      split at run
      next getret =>
        split at run
        next => cases run
        next middle first => exact .step fuel ⟨place, getret⟩ trivial first (ih run)
      next => exact ih run

theorem wireUpReturnValues_rewires {fuel : Nat} {blocks : List Nat}
    (run : wireUpReturnValues prevs fuel blocks st = .ok st') :
    Rewires prevs (fun _ _ _ => True) st st' := by
  induction blocks generalizing st with
  | nil =>
    cases run
    exact .none _
  | cons bb blocks ih =>
    rw [wireUpReturnValues] at run
    split at run
    next => cases run
    next middle first => exact (wireUpBlock_rewires first).trans (ih run)

/-! ## A call two blocks up -/

/-- Block 0 branches to the blocks 1 and 3 with a call each; the value goes from
block 1 through block 2, and from block 3 directly, to the `lfr` in block 4. -/
def distantCall : State where
  irs
    | 0 => [7]
    | 1 => [0, 1]
    | 2 => [2, 3]
    | 3 => [4, 5]
    | 4 => [6]
    | _ => []
  ir
    | 0 => ⟨.call, 0, none, []⟩
    | 2 => ⟨.stackadjust, 4, none, []⟩
    | 4 => ⟨.call, 0, none, []⟩
    | 6 => ⟨.getret, 4, none, []⟩
    | 7 => ⟨.other 0, 0, none, []⟩
    | _ => ⟨.jump, 0, none, []⟩
  nextId := 8

def distantPrevs : Nat → List Nat
  | 1 => [0]
  | 2 => [1]
  | 3 => [0]
  | 4 => [2, 3]
  | _ => []

theorem distantCall_wellFormed : WellFormed distantPrevs distantCall := by
  refine ⟨?_, ?_, ?_⟩
  · intro bb
    match bb with
    | 0 | 1 | 2 | 3 | 4 => decide
    | _ + 5 => exact List.forall_mem_nil _
  · intro bb
    match bb with
    | 0 | 1 | 2 | 3 | 4 => decide
    | _ + 5 => exact List.nodup_nil
  · intro bb
    match bb with
    | 0 | 1 | 2 | 3 | 4 => decide
    | _ + 5 => exact List.nodup_nil

theorem distantCall_phivalue :
    (wireUpReturnValues distantPrevs 9 [0, 1, 2, 3, 4] distantCall).map
      (fun st => (st.irs 4, (st.ir 8).phivalue)) = .ok ([8, 6], [(1, 0), (3, 4)]) := by
  decide +kernel

theorem distantCall_lfr : Lfr distantCall 4 0 6 := ⟨rfl, rfl⟩

theorem distantCall_wires :
    (wireUpIr distantPrevs 4 distantCall 4 0 6).map (fun st => st.irs 4) = .ok [8, 6] := by
  decide +kernel

/-- In every state the pass comes to, the search for an `lfr` inserts phis with an
operand for each predecessor, and wires up the value of the last call on every
path, if and only if no predecessor of such a phi has been gone through. -/
theorem rewired_iff {middle : State} {fuel bb index lfr : Nat} (wellFormed : WellFormed prevs st)
    (reached : Rewires prevs (fun _ _ _ => True) st middle) (isLfr : Lfr middle bb index lfr)
    (run : wireUpIr prevs fuel middle bb index lfr = .ok st') :
    WiredUp prevs middle st' bb lfr ↔ DirectCalls prevs middle bb index :=
  wiredUp_iff (reached.wellFormed wellFormed) isLfr run

theorem distantCall_rewired_iff :
    ∃ st', wireUpIr distantPrevs 4 distantCall 4 0 6 = .ok st' ∧
      (WiredUp distantPrevs distantCall st' 4 6 ↔ DirectCalls distantPrevs distantCall 4 0) := by
  have wires := distantCall_wires
  cases run : wireUpIr distantPrevs 4 distantCall 4 0 6 with
  | error failure =>
    rw [run] at wires
    cases wires
  | ok st' =>
    exact ⟨st', rfl, rewired_iff distantCall_wellFormed (.none _) distantCall_lfr run⟩

/-- The phi has the key 1 in place of the predecessor 2. -/
theorem distantCall_not_wiredUp :
    WellFormed distantPrevs distantCall ∧ Lfr distantCall 4 0 6 ∧
      ∃ st', wireUpReturnValues distantPrevs 9 [0, 1, 2, 3, 4] distantCall = .ok st' ∧
        ¬ WiredUp distantPrevs distantCall st' 4 6 := by
  refine ⟨distantCall_wellFormed, distantCall_lfr, ?_⟩
  have phivalue := distantCall_phivalue
  cases run : wireUpReturnValues distantPrevs 9 [0, 1, 2, 3, 4] distantCall with
  | error failure =>
    rw [run] at phivalue
    cases phivalue
  | ok st' =>
    rw [run] at phivalue
    obtain ⟨irs, operands⟩ := Prod.mk.inj (Except.ok.inj phivalue)
    refine ⟨st', rfl, ?_⟩
    intro wiredUp
    have perm := wiredUp.keyed 4 8 (by rw [irs]; decide) (by decide)
    rw [operands] at perm
    exact absurd perm (by decide)

end AckFormal.Mcg.WiredReturns
