import AckFormal.Mcg.ReturnSearch
import Mathlib.Data.List.Perm.Basic

/-!
# Phis of searches

A phi has the block of the call as the key of an operand.  This is the predecessor
itself unless the search has gone through the predecessor into a block further
up.  Where that does not happen the value on a path is that of the last call.
-/

namespace AckFormal.Mcg.ReturnPhis

open AckFormal.Data ReturnValues ReturnSearch

variable {prevs : Nat → List Nat} {base st : State} {first : Nat}

/-! ## Operands -/

theorem foldl_add {map found : List (Nat × Nat)} (keys : ((map ++ found).map Prod.fst).Nodup) :
    found.foldl (fun map result => Pmap.add map result.1 result.2) map = map ++ found := by
  induction found generalizing map with
  | nil => exact (List.append_nil map).symm
  | cons result found ih =>
    have absent : result ∉ map := by
      intro member
      rw [List.map_append, List.map_cons, List.nodup_append] at keys
      exact keys.2.2 _ (List.mem_map_of_mem member) _ List.mem_cons_self rfl
    rw [List.foldl_cons, Pmap.add_of_not_mem absent, ih]
    · rw [List.append_assoc, List.singleton_append]
    · rwa [List.append_assoc, List.singleton_append]

theorem operands_eq {found : List (Nat × Nat)} (keys : (found.map Prod.fst).Nodup) :
    operands found = found := by
  have all := @foldl_add [] found keys
  rwa [List.nil_append] at all

theorem mem_operands {found : List (Nat × Nat)} {result : Nat × Nat}
    (member : result ∈ operands found) : result ∈ found := by
  have along (found map : List (Nat × Nat))
      (member : result ∈ found.foldl (fun map result => Pmap.add map result.1 result.2) map) :
      result ∈ map ∨ result ∈ found := by
    induction found generalizing map with
    | nil => exact Or.inl member
    | cons other found ih =>
      rcases ih _ member with added | later
      · rcases Pmap.mem_add.mp added with earlier | same
        · exact Or.inl earlier
        · exact Or.inr (same ▸ List.mem_cons_self)
      · exact Or.inr (List.mem_cons_of_mem other later)
  exact (along found [] member).resolve_left List.not_mem_nil

/-- Results that have been found in the blocks themselves. -/
theorem operands_map {list : List Nat} (once : list.Nodup) {found : Nat → Nat × Nat}
    (direct : ∀ prev ∈ list, (found prev).1 = prev) :
    operands (list.map found) = list.map found ∧ (list.map found).map Prod.fst = list := by
  have keys : (list.map found).map Prod.fst = list := by
    rw [List.map_map]
    refine (List.map_congr_left ?_).trans (List.map_id list)
    intro prev member
    exact direct prev member
  refine ⟨operands_eq ?_, keys⟩
  rwa [keys]

variable {prev bb callbb callir x : Nat} {executed : List Nat}

theorem findleft_map {list : List Nat} {found : Nat → Nat × Nat}
    (direct : ∀ prev ∈ list, (found prev).1 = prev) (member : prev ∈ list) :
    Pmap.findleft (list.map found) prev = some (found prev).2 := by
  induction list with
  | nil => cases member
  | cons other list ih =>
    rw [List.forall_mem_cons] at direct
    rw [List.map_cons, Pmap.findleft]
    split
    next same =>
      rw [direct.1] at same
      rw [same]
    next differs =>
      rw [direct.1] at differs
      cases member with
      | head => exact absurd rfl differs
      | tail _ member => exact ih direct.2 member

/-! ## Where a search stops -/

theorem Searched.not_preserving_of_call {here : Nat} {before after : List Nat}
    (split : executed = before ++ here :: after) (isCall : (base.ir here).opcode = .call) :
    ¬ Preserving base executed := by
  intro preserving
  have member : here ∈ executed := by
    rw [split]
    exact List.mem_append_right before List.mem_cons_self
  rcases preserving here member with opcode | opcode | opcode
  · rw [isCall] at opcode
    cases opcode
  · rw [isCall] at opcode
    cases opcode
  · rw [isCall] at opcode
    cases opcode

/-- A search of a whole block never ends in a block it could go through. -/
theorem Searched.stops (searched : Searched prevs base first st bb executed callbb callir)
    (whole : executed = base.irs bb) :
    ¬ (Preserving base (base.irs callbb) ∧ (prevs callbb).length = 1) := by
  induction searched with
  | call split isCall _ =>
    rintro ⟨preserving, _⟩
    rw [← whole] at preserving
    exact Searched.not_preserving_of_call split isCall preserving
  | single _ _ _ ih => exact ih rfl
  | phi found _ several _ _ _ _ _ _ _ =>
    rintro ⟨_, one⟩
    exact several one

/-- A search of a block it cannot go through ends there. -/
theorem Searched.direct (searched : Searched prevs base first st bb (base.irs bb) callbb callir)
    (stop : Preserving base (base.irs bb) → (prevs bb).length ≠ 1) : callbb = bb := by
  cases searched with
  | call => rfl
  | single preserving edge rest =>
    refine absurd ?_ (stop preserving)
    rw [edge]
    rfl
  | phi => rfl

/-- Where the search comes to the head of a block without a single predecessor there
is a complete phi. -/
theorem Searched.phi_of_reaches (reaches : Reaches prevs base bb executed x)
    (searched : Searched prevs base first st bb executed callbb callir)
    (several : (prevs x).length ≠ 1) :
    ∃ phi, phi ∈ st.irs x ∧ first ≤ phi ∧ Built prevs base first st x phi := by
  induction reaches generalizing callbb callir with
  | here preserving =>
    cases searched with
    | call split isCall _ =>
      exact absurd preserving (Searched.not_preserving_of_call split isCall)
    | single _ edge _ =>
      rw [edge] at several
      exact absurd rfl several
    | phi found _ _ inserted above _ _ phivalue rest =>
      exact ⟨callir, inserted, above, several, found, phivalue, rest⟩
  | up preserving edge _ ih =>
    cases searched with
    | call split isCall _ =>
      exact absurd preserving (Searched.not_preserving_of_call split isCall)
    | single _ only rest =>
      rw [only, List.mem_singleton] at edge
      subst edge
      exact ih rest several
    | phi found _ _ _ _ _ _ _ rest => exact ih (rest _ edge) several

/-! ## Keys -/

theorem Built.keys {phi : Nat} (once : (prevs x).Nodup) (built : Built prevs base first st x phi)
    (stop : ∀ prev ∈ prevs x, Preserving base (base.irs prev) → (prevs prev).length ≠ 1) :
    ((st.ir phi).phivalue.map Prod.fst).Perm (prevs x) := by
  obtain ⟨several, found, phivalue, rest⟩ := built
  have direct : ∀ prev ∈ prevs x, (found prev).1 = prev :=
    fun prev member => Searched.direct (rest prev member) (stop prev member)
  obtain ⟨same, keys⟩ := operands_map once direct
  rw [phivalue, same, keys]

/-- A predecessor that the search has gone through is no key. -/
theorem Built.not_keys {phi : Nat} (built : Built prevs base first st x phi) (edge : prev ∈ prevs x)
    (preserving : Preserving base (base.irs prev)) (one : (prevs prev).length = 1) :
    ¬ ((st.ir phi).phivalue.map Prod.fst).Perm (prevs x) := by
  intro perm
  obtain ⟨several, found, phivalue, rest⟩ := built
  obtain ⟨result, member, key⟩ := List.mem_map.mp (perm.mem_iff.mpr edge)
  rw [phivalue] at member
  obtain ⟨other, otherEdge, same⟩ := List.mem_map.mp (mem_operands member)
  have key : (found other).1 = prev := by rw [same, key]
  have stops := Searched.stops (rest other otherEdge) rfl
  rw [key] at stops
  exact stops ⟨preserving, one⟩

/-! ## Values -/

structure Final (prevs : Nat → List Nat) (base fin : State) : Prop where
  calls : ∀ ir < base.nextId, (fin.ir ir).opcode = .call ↔ (base.ir ir).opcode = .call
  irs : ∀ bb, ∃ phis, fin.irs bb = phis ++ base.irs bb ∧
    ∀ ir ∈ phis, base.nextId ≤ ir ∧ (fin.ir ir).opcode = .phi
  several : ∀ bb ir, ir ∈ fin.irs bb → base.nextId ≤ ir → (prevs bb).length ≠ 1

theorem lastCallIn_none (noCall : ∀ ir ∈ executed, (st.ir ir).opcode ≠ .call) :
    lastCallIn st executed = none := by
  rw [lastCallIn, List.find?_eq_none]
  intro ir member
  rw [decide_eq_true_iff]
  exact noCall ir (List.mem_reverse.mp member)

theorem lastCallIn_call {here : Nat} {before after : List Nat} (isCall : (st.ir here).opcode = .call)
    (noCall : ∀ ir ∈ after, (st.ir ir).opcode ≠ .call) :
    lastCallIn st (before ++ here :: after) = some here := by
  have later := lastCallIn_none noCall
  rw [lastCallIn] at later ⊢
  rw [List.reverse_append, List.reverse_cons, List.append_assoc, List.find?_append, later,
    Option.none_or, List.singleton_append, List.find?_cons_of_pos]
  exact decide_eq_true isCall

theorem not_call_of_preserving (preserving : Preserving st executed) :
    ∀ ir ∈ executed, (st.ir ir).opcode ≠ .call := by
  intro ir member isCall
  rcases preserving ir member with opcode | opcode | opcode
  · rw [isCall] at opcode
    cases opcode
  · rw [isCall] at opcode
    cases opcode
  · rw [isCall] at opcode
    cases opcode

theorem Searched.callir_cases (searched : Searched prevs base first st bb executed callbb callir) :
    (base.ir callir).opcode = .call ∨ first ≤ callir := by
  induction searched with
  | call _ isCall _ => exact Or.inl isCall
  | single _ _ _ ih => exact ih
  | phi _ _ _ _ above _ _ _ _ _ => exact Or.inr above

def Stops (prevs : Nat → List Nat) (base : State) (bb : Nat) (executed : List Nat) : Prop :=
  ∀ x, Reaches prevs base bb executed x → (prevs x).length ≠ 1 →
    ∀ prev ∈ prevs x, Preserving base (base.irs prev) → (prevs prev).length ≠ 1

theorem Stops.up (stops : Stops prevs base bb executed) (preserving : Preserving base executed)
    (edge : prev ∈ prevs bb) : Stops prevs base prev (base.irs prev) :=
  fun x reaches => stops x (.up preserving edge reaches)

variable {fin : State}

variable (final : Final prevs base fin) (fresh : Fresh base)
include final fresh

theorem Final.noCall {bb : Nat}
    {front executed : List Nat} (phis : ∀ ir ∈ front, (fin.ir ir).opcode = .phi)
    (inside : ∀ ir ∈ executed, ir ∈ base.irs bb)
    (noCall : ∀ ir ∈ executed, (base.ir ir).opcode ≠ .call) :
    ∀ ir ∈ front ++ executed, (fin.ir ir).opcode ≠ .call := by
  rw [List.forall_mem_append]
  constructor
  · intro ir member isCall
    rw [phis ir member] at isCall
    cases isCall
  · intro ir member isCall
    exact noCall ir member ((final.calls ir (fresh bb ir (inside ir member))).mp isCall)

structure Front (base fin : State) (bb : Nat) (front : List Nat) : Prop where
  opcode : ∀ ir ∈ front, (fin.ir ir).opcode = .phi
  inside : ∀ ir ∈ front, ir ∈ fin.irs bb ∧ base.nextId ≤ ir
  all : ∀ ir ∈ fin.irs bb, base.nextId ≤ ir → ir ∈ front

theorem Final.front (bb : Nat) :
    ∃ front, fin.irs bb = front ++ base.irs bb ∧ Front base fin bb front := by
  obtain ⟨phis, irs, facts⟩ := final.irs bb
  refine ⟨phis, irs, fun ir member => (facts ir member).2, ?_, ?_⟩
  · intro ir member
    rw [irs]
    exact ⟨List.mem_append_left _ member, (facts ir member).1⟩
  · intro ir member above
    rw [irs, List.mem_append] at member
    refine member.resolve_right ?_
    intro old
    exact Nat.not_lt.mpr above (fresh bb ir old)

/-- The value found by a search is that of the last call. -/
theorem Searched.result_eq
    (once : ∀ bb, (prevs bb).Nodup) {bb callbb callir : Nat} {executed : List Nat}
    (searched : Searched prevs base base.nextId fin bb executed callbb callir)
    (stops : Stops prevs base bb executed) (inside : ∀ ir ∈ executed, ir ∈ base.irs bb)
    {front : List Nat} (new : Front base fin bb front) {path : List Nat}
    (isPath : IsPath prevs bb path) {event : Nat × Nat}
    (last : lastCall fin (front ++ executed) path = some event) :
    result fin (front ++ executed) path callir = some event := by
  induction searched generalizing front path event with
  | @call bb here executed before after split isCall preserving =>
    have member : here ∈ executed := by
      rw [split]
      exact List.mem_append_right before List.mem_cons_self
    have isCallNow := (final.calls here (fresh bb here (inside here member))).mpr isCall
    have noCall : ∀ ir ∈ after, (fin.ir ir).opcode ≠ .call := by
      intro ir later now
      have old : ir ∈ executed := by
        rw [split]
        exact List.mem_append_right before (List.mem_cons_of_mem here later)
      have isCallOld := (final.calls ir (fresh bb ir (inside ir old))).mp now
      exact not_call_of_preserving preserving ir later isCallOld
    have found : lastCallIn fin (front ++ executed) = some here := by
      rw [split, ← List.append_assoc]
      exact lastCallIn_call isCallNow noCall
    have present : here ∈ front ++ executed := List.mem_append_right front member
    cases path with
    | nil =>
      rw [lastCall, found] at last
      rw [result, if_pos ⟨present, isCallNow⟩]
      exact last
    | cons prev path =>
      rw [lastCall, found] at last
      rw [result, if_pos present, isCallNow]
      exact last
  | @single bb prev callbb callir executed preserving edge rest ih =>
    have noCall := final.noCall fresh new.opcode inside (not_call_of_preserving preserving)
    have none := lastCallIn_none noCall
    cases path with
    | nil =>
      rw [lastCall, none] at last
      cases last
    | cons other path =>
      obtain ⟨otherEdge, isPath⟩ := isPath
      rw [edge, List.mem_singleton] at otherEdge
      subst otherEdge
      obtain ⟨frontPrev, irs, newPrev⟩ := final.front fresh other
      have absent : callir ∉ front ++ executed := by
        rw [List.mem_append]
        rintro (inFront | inExecuted)
        · obtain ⟨inBlock, above⟩ := new.inside callir inFront
          apply final.several bb callir inBlock above
          rw [edge]
          rfl
        · rcases Searched.callir_cases rest with isCall | above
          · exact not_call_of_preserving preserving callir inExecuted isCall
          · exact Nat.not_lt.mpr above (fresh bb callir (inside callir inExecuted))
      have up : other ∈ prevs bb := by
        rw [edge]
        exact List.mem_singleton.mpr rfl
      rw [lastCall, none, irs] at last
      rw [result, if_neg absent, irs]
      exact ih (stops.up preserving up) (fun _ member => member) newPrev isPath last
  | @phi bb phi executed found preserving several inserted above below opcode phivalue rest ih =>
    have noCall := final.noCall fresh new.opcode inside (not_call_of_preserving preserving)
    have none := lastCallIn_none noCall
    cases path with
    | nil =>
      rw [lastCall, none] at last
      cases last
    | cons prev path =>
      obtain ⟨edge, isPath⟩ := isPath
      obtain ⟨frontPrev, irs, newPrev⟩ := final.front fresh prev
      have present : phi ∈ front ++ executed :=
        List.mem_append_left executed (new.all phi inserted above)
      have direct : ∀ prev ∈ prevs bb, (found prev).1 = prev := by
        intro other member
        exact Searched.direct (rest other member) (stops bb (.here preserving) several other member)
      have operand : Pmap.findleft (fin.ir phi).phivalue prev = some (found prev).2 := by
        rw [phivalue, (operands_map (once bb) direct).1]
        exact findleft_map direct edge
      rw [lastCall, none, irs] at last
      rw [result, if_pos present, opcode]
      rw [operand, irs]
      exact ih prev edge (stops.up preserving edge) (fun _ member => member) newPrev isPath last

end AckFormal.Mcg.ReturnPhis
