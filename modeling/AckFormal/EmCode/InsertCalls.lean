import AckFormal.EmCode.InsertRun

/-!
# The calls of the module

One call does to the chunks what it does to the texts.  A call that inserts a part that
is not there yet in a part that is being defined gives that part up: the output cannot be
finished any more.
-/

namespace AckFormal.EmCode

open Led (Byte)
open Lib
open Option (bind_eq_bind bind_eq_some_iff bind_some)
open List (foldlM_cons mem_cons_of_mem mem_cons_self mem_reverse)

section Calls

variable {buf : Bufsiz} {fuel : Nat} {s s' : Code} {h h' : Held} {n : Nat}

/-! ## Beginning and ending a part -/

theorem Matches.endCurrent (here : Matches buf s h) :
    ∃ s', s.endCurrent = some s' ∧ Keeps buf s' h none := by
  have keeps := here.keeps
  cases levels : h.levels with
  | nil =>
    rw [levels] at keeps
    refine ⟨s, ?_, keeps⟩
    unfold Code.endCurrent
    rw [here.current, levels]
    rfl
  | cons m rest =>
    rw [levels] at keeps
    exact keeps.endCurrent (here.listed m (by rw [levels]; exact mem_cons_self))
      (by rw [here.current, levels]; rfl)

theorem Matches.mkpart (here : Matches buf s h) (absent : n ∉ h.table) :
    ∃ s', s.mkpart n = some s' ∧ s'.sequential = s.sequential ∧
      s'.stable n = some ⟨[], none⟩ ∧ Matches buf s' { h with table := n :: h.table } := by
  have other : h.levels.head? ≠ some n := by
    intro first
    exact absent (here.listed n (List.mem_of_head? first))
  obtain ⟨s', ran, rfl, keeps⟩ := here.keeps.mkpart absent other
  refine ⟨_, ran, rfl, Function.update_self _ _ _, keeps, here.current, here.ontmpfile,
    chain_new here.chain (here.keeps.no_entry absent), ?_, here.distinct⟩
  intro m member
  exact mem_cons_of_mem n (here.listed m member)

theorem Matches.beginpart (here : Matches buf s h) (absent : n ∉ h.table) :
    ∃ s', s.beginpart n = some s' ∧
      Matches buf s' { h with table := n :: h.table, levels := n :: h.levels } := by
  obtain ⟨s₁, made, _, _, here₁⟩ := here.mkpart absent
  obtain ⟨s₂, ended, keeps₂⟩ := here₁.endCurrent
  have listed : n ∈ n :: h.table := mem_cons_self
  obtain ⟨p, entry⟩ := keeps₂.entry listed
  have closed := keeps₂.closed n p entry (by simp)
  have linked := keeps₂.rechunk (q := { p with prevpart := s₂.currPart }) none listed
    (keeps₂.holds n p entry) (fun _ _ => Iff.rfl) (fun _ => closed) (by simp)
  obtain ⟨s', resumed, keeps'⟩ := linked.resume listed
  have ran : s.beginpart n = some s' := by
    unfold Code.beginpart
    simp only [made, ended, entry, bind_eq_bind, bind_some]
    exact resumed
  obtain ⟨current', _, ontmpfile', chain'⟩ := beginpart_frame ran here.current here.chain
  refine ⟨s', ran, { keeps' with }, current', ontmpfile', chain', ?_, ?_⟩
  · intro m member
    rcases List.mem_cons.mp member with rfl | later
    · exact mem_cons_self
    · exact mem_cons_of_mem n (here.listed m later)
  · exact List.nodup_cons.mpr ⟨fun member => absent (here.listed n member), here.distinct⟩

/-- The part that was begun last ends. -/
theorem Matches.endpart {rest : List Nat} (here : Matches buf s h) (levels : h.levels = n :: rest) :
    ∃ s', s.endpart n = some s' ∧ Matches buf s' { h with levels := rest } := by
  have current : s.currPart = some n := by
    rw [here.current, levels]
    rfl
  have chain := here.chain
  have inLevels := here.listed
  have distinct := here.distinct
  rw [levels] at chain inLevels distinct
  obtain ⟨s₁, ended, keeps₁⟩ := here.endCurrent
  obtain ⟨_, _, _, _, chains⟩ := endCurrent_frame ended
  obtain ⟨⟨p, entry, prev⟩, _⟩ := chains _ chain
  have ran : ∃ s', s.endpart n = some s' ∧ Keeps buf s' h rest.head? := by
    unfold Code.endpart
    simp only [current, ended, entry, prev, bind_eq_bind, bind_some, ne_eq,
      not_true_eq_false, if_false]
    cases rest with
    | nil => exact ⟨_, rfl, { keeps₁ with }⟩
    | cons m rest =>
      exact keeps₁.resume (inLevels m (mem_cons_of_mem n mem_cons_self))
  obtain ⟨s', ran, keeps'⟩ := ran
  obtain ⟨_, current', _, ontmpfile', chain'⟩ := endpart_frame ran current chain
  refine ⟨s', ran, ?_⟩
  exact
    { keeps := { keeps' with }
      current := current'
      ontmpfile := ontmpfile'
      chain := chain'
      listed := fun m member => inLevels m (mem_cons_of_mem n member)
      distinct := (List.nodup_cons.mp distinct).2 }

/-! ## Inserting a part -/

/-- An insertion in the part that is being defined, or in the main text. -/
theorem Matches.insert_later {m : Nat} {rest : List Nat} (here : Matches buf s h)
    (later : h.sequential = false) (levels : h.levels = m :: rest) :
    ∃ s', s.insertpart buf fuel n = some s' ∧
      Matches buf s' { h with held := Function.update h.held m (h.held m ++ [.insert n]) } := by
  have current : s.currPart = some m := by
    rw [here.current, levels]
    rfl
  have first : h.levels.head? = some m := by
    rw [levels]
    rfl
  obtain ⟨s₁, ended, keeps₁⟩ := here.endCurrent
  obtain ⟨_, _, _, _, chains⟩ := endCurrent_frame ended
  obtain ⟨s', added, keeps'⟩ := keeps₁.addInsert (n := n)
    (here.listed m (by rw [levels]; exact mem_cons_self))
  obtain ⟨current', _, ontmpfile', chains'⟩ := addInsert_frame added
  refine ⟨s', ?_, ?_⟩
  · unfold Code.insertpart
    rw [here.keeps.sequential, later]
    simp only [current, ended]
    exact added
  · exact
      { keeps := by
          rw [first]
          exact keeps'
        current := by
          rw [current', first]
        ontmpfile := by
          rw [ontmpfile', levels]
          rfl
        chain := chains' _ (chains _ here.chain)
        listed := here.listed
        distinct := here.distinct }

theorem available_none (absent : s.stable n = none) :
    Code.available s.stable (fuel + 1) [] n = some false := by
  unfold Code.available
  rw [absent]

/-- A part that is not there yet ends the sequential output. -/
theorem Matches.insert_stops (here : Matches buf s h) (now : h.sequential = true)
    (absent : n ∉ h.table) (levels : h.levels = []) (free : 0 ∉ h.table) :
    ∃ s', s.insertpart buf fuel n = some s' ∧
      Matches buf s'
        { h with
          sequential := false, table := 0 :: h.table, levels := [0],
          held := Function.update h.held 0 (h.held 0 ++ [.insert n]) } := by
  have keeps := here.keeps
  rw [levels] at keeps
  have stopped : Keeps buf { s with sequential := false } { h with sequential := false } none :=
    { keeps with sequential := rfl }
  obtain ⟨s₁, made, rfl, keeps₁⟩ := stopped.mkpart (n := 0) free (by simp)
  have named : Keeps buf { s with
      sequential := false, currPart := some 0,
      stable := Function.update s.stable 0 (some ⟨[], none⟩) }
      { h with sequential := false, table := 0 :: h.table } none := { keeps₁ with }
  obtain ⟨s', added, keeps'⟩ := named.addInsert (n := n) (p := 0) mem_cons_self
  obtain ⟨current', _, ontmpfile', chains'⟩ := addInsert_frame added
  refine ⟨s', ?_, ?_⟩
  · unfold Code.insertpart
    rw [here.keeps.sequential, now]
    simp only [if_true, available_none (here.keeps.no_entry absent), bind_eq_bind,
      bind_some, Bool.false_eq_true, if_false, made]
    exact added
  · exact
      { keeps := { keeps' with }
        current := current'
        ontmpfile := ontmpfile'
        chain := chains' [0] ⟨⟨⟨[], none⟩, by simp, rfl⟩, trivial⟩
        listed := by simp
        distinct := List.nodup_singleton 0 }

/-- No part that is held has an insertion while the output is in sequence. -/
def Held.Plain (h : Held) : Prop :=
  h.sequential = true → ∀ n, inserts (h.held n) = []

variable {chunks : List PartOfPart}

theorem availableParts_texts {available : Nat → Option Bool} (texts : ∀ id, .insert id ∉ chunks) :
    Code.availableParts available chunks = some true := by
  induction chunks with
  | nil => rfl
  | cons chunk rest ih =>
    cases chunk with
    | text begin stop => exact ih fun id member => texts id (mem_cons_of_mem _ member)
    | insert id => exact absurd mem_cons_self (texts id)

theorem no_insert (base : List Byte)
    (plain : inserts (contents base chunks) = []) (id : Nat) : .insert id ∉ chunks := by
  intro member
  have inside : Item.insert id ∈ contents base chunks := by
    rw [contents, List.mem_flatMap]
    exact ⟨.insert id, mem_reverse.mpr member, mem_cons_self⟩
  rw [← mem_inserts, plain] at inside
  cases inside

theorem copy_eq {begin stop : Nat} (low : begin ≤ stop) (high : stop ≤ s.base.length) :
    s.copy buf begin stop = ((s.base.drop begin).take (stop - begin)).foldlM (Code.put buf) s := by
  obtain ⟨k, rfl⟩ := Nat.exists_eq_add_of_le low
  unfold Code.copy
  rw [Nat.add_sub_cancel_left]
  induction k generalizing s begin with
  | zero => rw [List.take_zero]; rfl
  | succ k ih =>
    have here : begin < s.base.length := by omega
    rw [List.range'_succ, foldlM_cons, List.drop_eq_getElem_cons here, List.take_succ_cons,
      foldlM_cons, List.getElem?_eq_getElem here, bind_some]
    cases step : s.put buf s.base[begin] with
    | none => rfl
    | some s₁ =>
      obtain ⟨_, _, _, _, added, base⟩ := put_frame step
      have rest := @ih s₁ (begin + 1) (by omega) (by rw [base, List.length_append]; omega)
      simp only [bind_eq_bind, bind_some]
      rw [rest, base, List.drop_append_of_le_length (by omega),
        List.take_append_of_le_length (by rw [List.length_drop]; omega)]

/-- A part without insertions is written byte by byte. -/
theorem out_texts (buf : Bufsiz) (outpart : Nat → Code → Option Code)
    (closed : ∀ chunk ∈ chunks, chunk.Closed s.base) (texts : ∀ id, .insert id ∉ chunks) :
    chunks.foldlM (Code.outChunk buf outpart) s =
      (flat (fun _ => []) (chunks.flatMap (PartOfPart.items s.base))).foldlM (Code.put buf) s := by
  induction chunks generalizing s with
  | nil => rfl
  | cons chunk rest ih =>
    have chunkClosed := closed chunk mem_cons_self
    have restClosed := fun c member => closed c (mem_cons_of_mem chunk member)
    have restTexts := fun id member => texts id (mem_cons_of_mem chunk member)
    match chunk with
    | .insert id => exact absurd mem_cons_self (texts id)
    | .text _ none => exact absurd chunkClosed id
    | .text begin (some stop) =>
      rw [foldlM_cons, List.flatMap_cons, flat_append, PartOfPart.items, flat_texts,
        List.foldlM_append]
      have copied : Code.outChunk buf outpart s (.text begin (some stop)) =
          s.copy buf begin stop := rfl
      rw [copied, copy_eq chunkClosed.1 chunkClosed.2]
      cases step : ((s.base.drop begin).take (stop - begin)).foldlM (Code.put buf) s with
      | none => rfl
      | some s₁ =>
        obtain ⟨_, _, _, _, added, base⟩ := putAll_frame step
        have later := ih (s := s₁)
          (fun c member => by rw [base]; exact (restClosed c member).append) restTexts
        have same : rest.flatMap (PartOfPart.items s₁.base) =
            rest.flatMap (PartOfPart.items s.base) := by
          rw [base]
          apply List.flatMap_congr
          intro c member
          exact (restClosed c member).items_append
        simp only [bind_eq_bind, bind_some]
        rw [later, same]

/-- A part that is there is written, or copied to the part that is being defined. -/
theorem Matches.insert_now (here : Matches buf s h) (fuel : Nat) (plain : h.Plain)
    (now : h.sequential = true)
    (listed : n ∈ h.table) (other : h.levels.head? ≠ some n) :
    s.insertpart buf fuel n = ((h.bytes n).foldlM (Code.put buf) s).map (Code.clear n) := by
  obtain ⟨p, entry⟩ := here.keeps.entry listed
  have closed := here.keeps.closed n p entry other
  have holds := here.keeps.holds n p entry
  have noInserts : ∀ id, .insert id ∉ p.parts := by
    apply no_insert s.base
    rw [holds]
    exact plain now n
  have ready : Code.available s.stable (fuel + 1) [] n = some true := by
    unfold Code.available
    rw [entry]
    exact availableParts_texts noInserts
  have copied := out_texts buf (Code.outpart buf fuel)
    (fun c (member : c ∈ p.parts.reverse) => closed c (mem_reverse.mp member))
    (fun id member => noInserts id (mem_reverse.mp member))
  have texts : flat (fun _ => []) (p.parts.reverse.flatMap (PartOfPart.items s.base)) = h.bytes n := by
    rw [Held.bytes, ← holds]
    rfl
  rw [texts] at copied
  unfold Code.insertpart
  rw [here.keeps.sequential, now]
  simp only [if_true, ready, bind_eq_bind, bind_some]
  unfold Code.outpart
  rw [entry]
  simp only [copied]

theorem Matches.insert_now_some (here : Matches buf s h) (plain : h.Plain)
    (now : h.sequential = true) (listed : n ∈ h.table) (other : h.levels.head? ≠ some n)
    (ran : (h.bytes n).foldlM Held.put h = some h') :
    ∃ s', s.insertpart buf fuel n = some s' ∧
      Matches buf s' { h' with held := Function.update h'.held n [] } := by
  obtain ⟨s₁, put, here₁⟩ := here.putAll_some ran
  obtain ⟨stable, current, _, ontmpfile, _⟩ := putAll_frame put
  obtain ⟨p, entry⟩ := here.keeps.entry listed
  have entry₁ : s₁.stable n = some p := by rw [stable, entry]
  obtain ⟨levels, table, _⟩ := Held.putAll_control ran
  rw [here.insert_now fuel plain now listed other, put]
  have cleared : s₁.clear n =
      { s₁ with stable := Function.update s₁.stable n (some { p with parts := [] }) } := by
    rw [Code.clear, entry₁]
    rfl
  refine ⟨s₁.clear n, rfl, ?_⟩
  rw [cleared]
  have keeps := here₁.keeps.replace (q := { p with parts := [] }) _ (by rw [table]; exact listed) rfl
    (fun _ _ => Iff.rfl) (by simp) (fun first => absurd (levels ▸ first) other)
  exact here₁.same_levels keeps rfl rfl (chain_replace here₁.chain entry₁ rfl) rfl rfl

/-! ## One call -/

/-- The code has a result for each call that has one on what is held. -/
theorem Matches.call_some {c : Call} (here : Matches buf s h) (fuel : Nat) (plain : h.Plain)
    (inside : ∀ n, c = .insertpart n → h.sequential = true → h.levels.head? ≠ some n)
    (ran : h.call c = some h') : ∃ s', s.call buf fuel c = some s' ∧ Matches buf s' h' := by
  cases c with
  | put c => exact here.put_some ran
  | beginpart n =>
    unfold Held.call at ran
    dsimp only at ran
    split at ran
    · cases ran
    · rename_i absent
      cases ran
      exact here.beginpart absent
  | endpart n =>
    unfold Held.call at ran
    dsimp only at ran
    split at ran
    · rename_i m rest levels
      split at ran
      · rename_i same
        cases ran
        subst same
        exact here.endpart levels
      · cases ran
    · cases ran
  | insertpart n =>
    unfold Held.call at ran
    dsimp only at ran
    split at ran
    · rename_i now
      have other := inside n rfl now
      split at ran
      · rename_i listed
        obtain ⟨h₁, moved, rfl⟩ := Option.map_eq_some_iff.mp ran
        exact here.insert_now_some plain now listed other moved
      · rename_i absent
        split at ran
        · rename_i free
          cases ran
          exact here.insert_stops now absent free.1 free.2
        · cases ran
    · rename_i later
      split at ran
      · rename_i m rest levels
        cases ran
        exact here.insert_later (by simpa using later) levels
      · cases ran

/-! ## Parts that are given up -/

/-- The part `P` is being defined, but the main text has taken its place. -/
structure Doomed (s : Code) (open_ : List Nat) : Prop where
  later : s.sequential = false
  lost : ∃ inner P outer, open_ = inner ++ P :: outer ∧ P ≠ 0 ∧
    s.currPart = (inner ++ [0]).head? ∧ Chain s.stable (inner ++ [0])

/-- A call that cannot be finished stops the program, or gives a part up. -/
theorem Matches.call_none {c : Call} (here : Matches buf s h) (plain : h.Plain)
    (inside : ∀ n, c = .insertpart n → h.sequential = true → h.levels.head? ≠ some n)
    (ran : h.call c = none) {s' : Code} (ran' : s.call buf fuel c = some s') :
    ∃ n, c = .insertpart n ∧ h.sequential = true ∧ Doomed s' h.levels := by
  cases c with
  | put c =>
    have none := here.put_none ran
    unfold Code.call at ran'
    dsimp only at ran'
    rw [none] at ran'
    cases ran'
  | beginpart n =>
    unfold Held.call at ran
    dsimp only at ran
    split at ran
    · rename_i listed
      obtain ⟨p, entry⟩ := here.keeps.entry listed
      obtain ⟨s₁, made, _⟩ := bind_eq_some_iff.mp ran'
      have absent := (mkpart_ran made).1
      rw [entry] at absent
      cases absent
    · cases ran
  | endpart n =>
    unfold Held.call at ran
    dsimp only at ran
    obtain ⟨id, current, later⟩ := bind_eq_some_iff.mp ran'
    rw [here.current] at current
    split at ran
    · rename_i m rest levels
      rw [levels] at current
      cases current
      split at ran
      · cases ran
      · rename_i other
        rw [if_pos other] at later
        cases later
    · rename_i levels
      rw [levels] at current
      cases current
  | insertpart n =>
    refine ⟨n, rfl, ?_⟩
    unfold Held.call at ran
    dsimp only at ran
    split at ran
    · rename_i now
      have other := inside n rfl now
      refine ⟨now, ?_⟩
      split at ran
      · rename_i listed
        have moved := Option.map_eq_none_iff.mp ran
        have same := here.insert_now fuel plain now listed other
        rw [here.putAll_none moved] at same
        unfold Code.call at ran'
        dsimp only at ran'
        rw [same] at ran'
        cases ran'
      · rename_i absent
        split at ran
        · cases ran
        · rename_i taken
          unfold Code.call Code.insertpart at ran'
          rw [here.keeps.sequential, now] at ran'
          simp only [if_true, available_none (here.keeps.no_entry absent), bind_eq_bind,
            bind_some, Bool.false_eq_true, if_false] at ran'
          obtain ⟨s₁, made, added⟩ := bind_eq_some_iff.mp ran'
          obtain ⟨free, rfl⟩ := mkpart_ran made
          have notListed : 0 ∉ h.table := by
            intro listed
            obtain ⟨p, entry⟩ := here.keeps.entry listed
            rw [entry] at free
            cases free
          obtain ⟨current', later', _, chains'⟩ := addInsert_frame added
          cases levels : h.levels with
          | nil => exact absurd ⟨levels, notListed⟩ taken
          | cons P outer =>
            have listed : P ∈ h.table := here.listed P (by
              rw [levels]
              exact mem_cons_self)
            refine ⟨later', [], P, outer, rfl, ?_, current', ?_⟩
            · rintro rfl
              exact notListed listed
            · exact chains' [0] ⟨⟨⟨[], none⟩, by simp, rfl⟩, trivial⟩
    · rename_i later
      split at ran
      · cases ran
      · rename_i levels
        have last : h.sequential = false := by simpa using later
        unfold Code.call Code.insertpart at ran'
        rw [here.keeps.sequential, last] at ran'
        obtain ⟨p, current, _⟩ := bind_eq_some_iff.mp ran'
        rw [here.current, levels] at current
        cases current

/-- No call gives the part its place back. -/
theorem Doomed.call {c : Call} {rest : List Call} {open_ : List Nat} (doomed : Doomed s open_)
    (nested : Nested open_ (c :: rest)) (ran : s.call buf fuel c = some s') :
    ∃ open', Nested open' rest ∧ Doomed s' open' := by
  obtain ⟨later, inner, P, outer, rfl, positive, current, chain⟩ := doomed
  cases c with
  | put c =>
    obtain ⟨stable, current', sequential, _, _⟩ := put_frame ran
    refine ⟨_, nested, sequential.trans later, inner, P, outer, rfl, positive,
      current'.trans current, ?_⟩
    rw [stable]
    exact chain
  | insertpart n =>
    unfold Code.call Code.insertpart at ran
    rw [later] at ran
    obtain ⟨p, now, ran⟩ := bind_eq_some_iff.mp ran
    obtain ⟨s₁, ended, added⟩ := bind_eq_some_iff.mp ran
    obtain ⟨_, sequential₁, _, _, chains⟩ := endCurrent_frame ended
    obtain ⟨current', sequential', _, chains'⟩ := addInsert_frame added
    exact ⟨_, nested, sequential'.trans (sequential₁.trans later), inner, P, outer, rfl, positive,
      current'.trans (now.symm.trans current), chains' _ (chains _ chain)⟩
  | beginpart n =>
    obtain ⟨current', sequential', _, chain'⟩ := beginpart_frame ran current chain
    exact ⟨_, nested, sequential'.trans later, n :: inner, P, outer, rfl, positive, current',
      chain'⟩
  | endpart n =>
    obtain ⟨outside, opened, nested'⟩ := nested_endpart nested
    cases inner with
    | nil =>
      obtain ⟨same, _⟩ := endpart_frame ran current chain
      cases opened
      exact absurd same positive
    | cons m inner =>
      obtain ⟨_, current', sequential', _, chain'⟩ := endpart_frame ran current chain
      cases opened
      exact ⟨_, nested', sequential'.trans later, inner, P, outer, rfl, positive, current', chain'⟩

theorem Doomed.never {calls : List Call} {open_ : List Nat} (doomed : Doomed s open_)
    (nested : Nested open_ calls) : calls.foldlM (Code.call buf fuel) s = none := by
  induction calls generalizing s open_ with
  | nil =>
    obtain ⟨_, inner, P, outer, rfl, _⟩ := doomed
    exact absurd nested (by simp [Nested])
  | cons c rest ih =>
    rw [foldlM_cons]
    cases step : s.call buf fuel c with
    | none => rfl
    | some s₁ =>
      obtain ⟨open', nested', doomed'⟩ := doomed.call nested step
      exact ih doomed' nested'

end Calls

end AckFormal.EmCode
