import AckFormal.Top.Optimize

/-!
# What the search for a pattern leaves alone

Splitting operands changes an instruction's operands and state; its line and its links stay. So the
search for a pattern changes neither queue, and finds only patterns that are not longer than
the window.
-/

namespace AckFormal.Top

open Lib.Links

variable {gen : Gen}

structure Instruction.Same (ip ip' : Instruction) : Prop where
  line : ip'.line = ip.line
  fw : ip'.fw = ip.fw

variable {ip ip' : Instruction} {heap : Heap}

theorem Instruction.Same.trans {ip'' : Instruction} (first : ip.Same ip') (second : ip'.Same ip'') :
    ip.Same ip'' :=
  ⟨second.line.trans first.line, second.fw.trans first.fw⟩

theorem setOpcode_same (ran : setOpcode gen ip = some ip') : ip.Same ip' := by
  unfold setOpcode at ran
  split at ran
  · cases ran
    exact ⟨rfl, rfl⟩
  · dsimp only at ran
    split at ran
    · cases ran
      exact ⟨rfl, rfl⟩
    · obtain ⟨⟨opc, after⟩, -, rfl⟩ := Option.map_eq_some_iff.mp ran
      split <;> exact ⟨rfl, rfl⟩

theorem scanOpc_isSome (gen : Gen) {rest : List Char} (ends : '\n' ∈ rest) :
    ∃ parts, scanOpc gen rest = some parts := by
  induction rest with
  | nil => cases ends
  | cons c rest ih =>
    by_cases stops : c = gen.opcTerminator ∨ c = '\n'
    · exact ⟨([], c :: rest), if_pos stops⟩
    · have later : '\n' ∈ rest := by
        rcases List.mem_cons.mp ends with same | member
        · exact absurd (.inr same.symm) stops
        · exact member
      obtain ⟨parts, scanned⟩ := ih later
      exact ⟨(c :: parts.1, parts.2), by rw [scanOpc, if_neg stops, scanned]; rfl⟩

theorem mem_skipWhite {rest : List Char} (ends : '\n' ∈ rest) : '\n' ∈ skipWhite rest := by
  induction rest with
  | nil => cases ends
  | cons c rest ih =>
    unfold skipWhite at ih ⊢
    rw [List.dropWhile_cons]
    split
    next white =>
        refine ih ((List.mem_cons.mp ends).resolve_left ?_)
        rintro rfl
        exact absurd white (by decide)
    next => exact ends

/-- The opcode of a line that ends is recognised or found to be none. -/
theorem setOpcode_isSome (gen : Gen) (ip : Instruction)
    (ends : ip.state ≠ .junk → '\n' ∈ ip.restLine.getD []) :
    ∃ ip', setOpcode gen ip = some ip' := by
  unfold setOpcode
  split
  next => exact ⟨ip, rfl⟩
  next live =>
      dsimp only
      split
      next => exact ⟨_, rfl⟩
      next =>
          obtain ⟨parts, scanned⟩ := scanOpc_isSome gen (mem_skipWhite (ends live))
          exact ⟨_, by rw [scanned]; rfl⟩

theorem operand_same {n : Nat} {found : Bool} (ran : operand gen ip n = some (found, ip')) :
    ip.Same ip' := by
  unfold operand at ran
  split at ran
  · cases ran
  · obtain ⟨⟨text, after⟩, -, chosen⟩ := Option.bind_eq_some_iff.mp ran
    dsimp only at chosen
    split at chosen
    · cases chosen
      exact ⟨rfl, rfl⟩
    · split at chosen
      · cases chosen
        exact ⟨rfl, rfl⟩
      · cases chosen

theorem opSeparator_same (gen : Gen) (ip : Instruction) : ip.Same (opSeparator gen ip).2 := by
  unfold opSeparator
  dsimp only
  split
  · split <;> exact ⟨rfl, rfl⟩
  · exact ⟨rfl, rfl⟩

theorem operands_same {room n : Nat} (ran : operands gen room n ip = some ip') : ip.Same ip' := by
  induction room generalizing n ip with
  | zero =>
    rw [operands] at ran
    obtain ⟨⟨found, next⟩, read, later⟩ := Option.bind_eq_some_iff.mp ran
    have same := operand_same read
    cases found with
    | false => cases later; exact same
    | true =>
      dsimp only at later
      rw [if_pos rfl] at later
      split at later
      · cases later
      · cases later
        exact same.trans (opSeparator_same gen next)
  | succ room ih =>
    rw [operands] at ran
    obtain ⟨⟨found, next⟩, read, later⟩ := Option.bind_eq_some_iff.mp ran
    have same := operand_same read
    cases found with
    | false => cases later; exact same
    | true =>
      dsimp only at later
      rw [if_pos rfl] at later
      have separated := same.trans (opSeparator_same gen next)
      split at later
      · exact separated.trans (ih later)
      · cases later
        exact separated

theorem labeldef_same (ip : Instruction) : ip.Same (labeldef gen ip) := by
  unfold labeldef
  dsimp only
  split <;> exact ⟨rfl, rfl⟩

theorem remainderEmpty_same (ip : Instruction) : ip.Same (remainderEmpty ip).2 := by
  unfold remainderEmpty
  split <;> exact ⟨rfl, rfl⟩

theorem splitOperands_same {split : Bool} (ran : splitOperands gen ip = some (split, ip')) :
    ip.Same ip' := by
  obtain ⟨next, parts, rest⟩ := Option.map_eq_some_iff.mp ran
  have same : ip.Same next := by
    split at parts
    · cases parts
      exact labeldef_same ip
    · exact operands_same parts
  cases rest
  exact same.trans ⟨(remainderEmpty_same next).line, (remainderEmpty_same next).fw⟩

/-- Putting an instruction with the same line and links in place changes no list. -/
theorem set_relinked {p : Ptr} (same : (heap.node p).Same ip) :
    Heap.Relinked heap (heap.set p ip) [] where
  next := by
    intro other _
    by_cases here : other = p
    · subst here
      simp [Heap.next, Heap.set, same.fw]
    · simp [Heap.next, Heap.set, Function.update_of_ne here]
  text := by
    funext other
    by_cases here : other = p
    · subst here
      simp [Heap.text, Heap.set, same.line]
    · simp [Heap.text, Heap.set, Function.update_of_ne here]
  pool := rfl
  fresh := rfl

theorem splitOnce_relinked {heap' : Heap} {ip : Ptr} {split : Bool}
    (ran : splitOnce gen heap ip = some (split, heap')) : Heap.Relinked heap heap' [] := by
  unfold splitOnce at ran
  split at ran
  · obtain ⟨⟨split', instr⟩, parts, eq⟩ := Option.map_eq_some_iff.mp ran
    cases eq
    exact set_relinked (splitOperands_same parts)
  · cases ran
    exact .refl _ []

theorem checkOperands_relinked {pat : List InstrDescr} {ip : Option Ptr} {heap' : Heap}
    {var var' : Nat → Variable} {matched : Bool}
    (ran : checkOperands gen pat ip heap var = some (matched, heap', var')) :
    Heap.Relinked heap heap' [] := by
  induction pat generalizing ip heap var with
  | nil =>
    cases ran
    exact .refl _ []
  | cons id pat ih =>
    cases ip with
    | none => cases ran
    | some p =>
      rw [checkOperands] at ran
      split at ran
      · cases ran
        exact .refl _ []
      · obtain ⟨⟨split, middle⟩, parts, later⟩ := Option.bind_eq_some_iff.mp ran
        have relinked := splitOnce_relinked parts
        dsimp only at later
        split at later
        · obtain ⟨⟨matched, known⟩, -, last⟩ := Option.bind_eq_some_iff.mp later
          dsimp only at last
          split at last
          · exact relinked.trans (ih last)
          · cases last
            exact relinked
        · cases later
          exact relinked

/-- A pattern that matches is not longer than the list it is matched against. -/
theorem checkPattern_length {pat : List InstrDescr} {cells : List Ptr} {any any' : Variable}
    {ip : Option Ptr} (linked : Follows heap.next cells none)
    (ran : checkPattern gen heap pat cells.head? any = some (some ip, any')) :
    pat.length ≤ cells.length := by
  induction pat generalizing cells any with
  | nil => exact Nat.zero_le _
  | cons id pat ih =>
    cases cells with
    | nil => cases ran
    | cons cell rest =>
      have next : heap.next cell = rest.head? := by
        rw [linked.1]
        exact Option.or_none
      rw [List.head?_cons, checkPattern, next] at ran
      have shorter : pat.length ≤ rest.length := by
        split at ran
        · cases ran
        · split at ran
          · obtain ⟨⟨_, known⟩, -, later⟩ := Option.bind_eq_some_iff.mp ran
            exact ih linked.2 later
          · split at ran
            · cases ran
            · exact ih linked.2 ran
      exact Nat.succ_le_succ shorter

/-- The queues, the texts and what is read and written are the same. -/
structure Optimizer.Same (s s' : Optimizer) : Prop where
  heap : Heap.Relinked s.heap s'.heap []
  window : s'.window = s.window
  backup : s'.backup = s.backup
  junkState : s'.junkState = s.junkState
  input : s'.input = s.input
  output : s'.output = s.output

theorem Optimizer.Same.trans {s s' s'' : Optimizer} (first : s.Same s') (second : s'.Same s'') :
    s.Same s'' where
  heap := first.heap.trans second.heap
  window := second.window.trans first.window
  backup := second.backup.trans first.backup
  junkState := second.junkState.trans first.junkState
  input := second.input.trans first.input
  output := second.output.trans first.output

theorem constrain_same {number : Nat} {s s' : Optimizer} {allowed : Bool}
    (ran : constrain gen number s = some (allowed, s')) : s.Same s' := by
  obtain ⟨⟨holds, values⟩, -, eq⟩ := Option.map_eq_some_iff.mp ran
  cases eq
  exact ⟨.refl _ [], rfl, rfl, rfl, rfl, rfl⟩

theorem Optimizer.Same.holds {s s' : Optimizer} {cells : List Ptr} (same : s.Same s')
    (holds : Holds s.heap s.window cells) : Holds s'.heap s'.window cells := by
  rw [same.window]
  exact holds.frame same.heap fun _ _ => List.not_mem_nil

/-- What a search finds: the same queues, and a pattern of the table that fits the window. -/
theorem search_spec {list : List Nat} {s s' : Optimizer} {found : Option PatternDescr}
    {cells : List Ptr} (holds : Holds s.heap s.window cells)
    (ran : search gen list s = some (found, s')) :
    s.Same s' ∧ ∀ p, found = some p → p ∈ gen.patterns ∧ p.pat.length ≤ cells.length := by
  induction list generalizing s with
  | nil =>
    cases ran
    exact ⟨⟨.refl _ [], rfl, rfl, rfl, rfl, rfl⟩, fun p none => nomatch none⟩
  | cons number list ih =>
    obtain ⟨p, entry, rest⟩ := Option.bind_eq_some_iff.mp ran
    obtain ⟨⟨ended, any⟩, checked, rest⟩ := Option.bind_eq_some_iff.mp rest
    have unread : s.Same { s with any := any } := ⟨.refl _ [], rfl, rfl, rfl, rfl, rfl⟩
    dsimp only at rest
    split at rest
    next =>
        obtain ⟨later, fits⟩ := ih (s := { s with any := any }) holds rest
        exact ⟨unread.trans later, fits⟩
    next ip =>
        obtain ⟨⟨matched, heap, var⟩, operands, last⟩ := Option.bind_eq_some_iff.mp rest
        have relinked := checkOperands_relinked operands
        let next : Optimizer :=
          { s with
            any := any, rest := ip.map fun ip => (s.heap.node ip).opc, heap := heap, var := var }
        have same : s.Same next := ⟨relinked, rfl, rfl, rfl, rfl, rfl⟩
        have kept : Holds next.heap next.window cells :=
          holds.frame relinked fun _ _ => List.not_mem_nil
        dsimp only at last
        split at last
        · obtain ⟨⟨allowed, assigned⟩, constrained, chosen⟩ := Option.bind_eq_some_iff.mp last
          have valued : next.Same assigned := constrain_same constrained
          dsimp only at chosen
          split at chosen
          · cases chosen
            refine ⟨same.trans valued, ?_⟩
            rintro q ⟨rfl⟩
            refine ⟨List.mem_of_getElem? entry, ?_⟩
            rw [holds.head] at checked
            exact checkPattern_length holds.linked checked
          · obtain ⟨later, fits⟩ := ih (valued.holds kept) chosen
            exact ⟨(same.trans valued).trans later, fits⟩
        · obtain ⟨later, fits⟩ := ih kept last
          exact ⟨same.trans later, fits⟩

end AckFormal.Top
