import AckFormal.Top.Rewriting

/-!
# The text over a whole run

Reading moves text from the input to the window. With it every turn that stays within the
program's data rewrites only what a pattern matches, and a run without patterns copies its
input.
-/

namespace AckFormal.Top

open Lib.Links

variable {gen : Gen} {stale : Nat → Stale}

theorem readChars_append (room : Nat) (c : Char) (input : List Char) :
    (readChars room c input).1 ++ (readChars room c input).2.1 = c :: input := by
  induction room generalizing c input with
  | zero => rfl
  | succ room ih =>
    unfold readChars
    split
    · rfl
    · cases input with
      | nil => rfl
      | cons next input =>
        have later := ih next input
        simp only [List.cons_append, later]

theorem readChars_ended {room : Nat} {c : Char} {input : List Char}
    (ended : (readChars room c input).2.2 = true) : '\n' ∈ (readChars room c input).1 := by
  induction room generalizing c input with
  | zero => cases ended
  | succ room ih =>
    unfold readChars at ended ⊢
    split at ended
    next newline =>
        rw [if_pos newline, newline]
        exact List.mem_singleton.mpr rfl
    next other =>
        rw [if_neg other]
        cases input with
        | nil => cases ended
        | cons next input => exact List.mem_cons_of_mem c (ih ended)

theorem readChars_unread {room : Nat} (positive : 0 < room) (c : Char) (input : List Char) :
    (readChars room c input).2.1.length ≤ input.length := by
  have whole := congrArg List.length (readChars_append room c input)
  cases room with
  | zero => cases positive
  | succ room =>
    have nonempty : 0 < (readChars (room + 1) c input).1.length := by
      unfold readChars
      split
      · exact Nat.one_pos
      · cases input <;> exact Nat.succ_pos _
    rw [List.length_append, List.length_cons] at whole
    omega

/-- What reading into the window leaves: the same text, with a window that is longer by what
was read. -/
structure Filled (s s' : Optimizer) (w w' : List Ptr) : Prop where
  text : s'.text = s.text
  backup : s'.backup = s.backup
  output : s'.output = s.output
  measure : 2 * s'.input.length + w'.length ≤ 2 * s.input.length + w.length

namespace Held

variable {s s' : Optimizer} {w b pool : List Ptr}

/-- An instruction that was read has been given the characters it was read from. -/
theorem readInstr (gen : Gen) (stale : Nat → Stale) (held : Held s w b pool) {c : Char}
    {input : List Char}
    (unread : s.input = c :: input) :
    ∃ s1 p pool', readInstr gen stale s = (some p, s1) ∧
      Rep s1.heap s.window s.backup w b pool' ∧ Loose s1.heap p w b pool' ∧
      s1.window = s.window ∧ s1.backup = s.backup ∧ s1.output = s.output ∧
      (∀ q, q ≠ p → s1.heap.text q = s.heap.text q) ∧ s1.heap.text p ++ s1.input = s.input ∧
      s1.input.length < s.input.length ∧
      ((s1.heap.node p).state ≠ .junk → '\n' ∈ (s1.heap.node p).line) := by
  obtain ⟨heap1, p, pool', new, taken, loose, -, texts⟩ := held.take gen.maxOp stale
  let read := readChars gen.maxLineLen c input
  let instr : Instruction := { heap1.node p with
    line := read.1, state := if read.2.2 && !s.junkState then .onlyOpc else .junk }
  let s1 : Optimizer := { s with
    heap := heap1.set p instr, junkState := !read.2.2, input := read.2.1 }
  have node : s1.heap.node p = instr := by
    simp only [s1, Heap.set, Function.update_self]
  have shorter := readChars_unread gen.line_pos c input
  refine ⟨s1, p, pool', ?_, taken.write loose instr,
    ⟨loose.window, loose.backup, loose.pool, loose.known⟩, rfl, rfl, rfl, ?_, ?_, ?_, ?_⟩
  · simp only [Top.readInstr, new, unread, s1, instr, read]
  · intro q apart
    rw [← texts q apart]
    simp only [s1, Heap.text, Heap.set, Function.update_of_ne apart]
  · rw [unread, Heap.text, node]
    exact readChars_append gen.maxLineLen c input
  · rw [unread]
    exact Nat.lt_succ_of_le shorter
  · intro live
    rw [node] at live ⊢
    have ended : read.2.2 = true := by
      by_contra other
      simp [instr, other] at live
    exact readChars_ended ended

/-- Reading into the window stops at the end of the input only. -/
theorem fill (gen : Gen) (stale : Nat → Stale) (count : Nat) (held : Held s w b pool) :
    ∃ s' new pool', fill gen stale count s = some s' ∧ Held s' (w ++ new) b pool' ∧
      Filled s s' w (w ++ new) ∧ (new.length < count → s'.input = []) := by
  induction count generalizing s w pool with
  | zero =>
    refine ⟨s, [], pool, rfl, ?_, ?_, fun less => absurd less (Nat.not_lt_zero _)⟩
    · rw [List.append_nil]
      exact held
    · rw [List.append_nil]
      exact ⟨rfl, rfl, rfl, Nat.le_refl _⟩
  | succ count ih =>
    cases unread : s.input with
    | nil =>
      obtain ⟨heap1, p, pool1, new, taken, loose, -, texts⟩ := held.take gen.maxOp stale
      let s1 : Optimizer := { s with heap := heap1 }
      have kept : Held s1 w b pool1 := taken
      have text : s1.text = s.text := by
        have window : w.map heap1.text = w.map s.heap.text :=
          List.map_congr_left fun q member => texts q fun same => loose.window (same ▸ member)
        have backup : b.map heap1.text = b.map s.heap.text :=
          List.map_congr_left fun q member => texts q fun same => loose.backup (same ▸ member)
        rw [kept.text_eq, held.text_eq, window, backup]
      refine ⟨s1, [], pool1, ?_, ?_, ?_, fun _ => unread⟩
      · simp only [Top.fill, Top.readInstr, new, unread, s1]
      · rw [List.append_nil]
        exact kept
      · rw [List.append_nil]
        exact ⟨text, rfl, rfl, Nat.le_refl _⟩
    | cons c input =>
      obtain ⟨s1, p, pool1, read, rep, loose, window, backup, output, texts, line, shorter, ends⟩ :=
        held.readInstr gen stale unread
      let instr : Instruction :=
        { s1.heap.node p with restLine := some (s1.heap.node p).line }
      obtain ⟨instr', recognised⟩ := setOpcode_isSome gen instr ends
      have same : (s1.heap.node p).Same instr' :=
        ⟨(setOpcode_same recognised).line, (setOpcode_same recognised).fw⟩
      have relinked := set_relinked same
      have written := rep.write loose instr'
      have loose' : Loose (s1.heap.set p instr') p w b pool1 :=
        ⟨loose.window, loose.backup, loose.pool, loose.known⟩
      obtain ⟨heap2, window2, added, pushed, text2⟩ := written.push loose'
      let s2 : Optimizer := { s1 with heap := heap2, window := window2 }
      have kept : Held s2 (w ++ [p]) b pool1 := by
        unfold Held
        rw [show s2.backup = s.backup from backup]
        exact pushed
      have heapText : s2.heap.text = s1.heap.text := text2.trans relinked.text
      have text : s2.text = s.text := by
        have inWindow : w.map s1.heap.text = w.map s.heap.text :=
          List.map_congr_left fun q member => texts q fun same => loose.window (same ▸ member)
        have inBackup : b.map s1.heap.text = b.map s.heap.text :=
          List.map_congr_left fun q member => texts q fun same => loose.backup (same ▸ member)
        have unchanged : s2.output = s.output := output
        have rest : s2.input = s1.input := rfl
        rw [kept.text_eq, held.text_eq, heapText, inBackup, unchanged, rest, List.map_append, inWindow,
          ← line]
        simp
      obtain ⟨s3, new, pool3, ran, final, filled, ended⟩ := ih kept
      refine ⟨s3, p :: new, pool3, ?_, ?_, ⟨?_, ?_, ?_, ?_⟩, ?_⟩
      · simp only [Top.fill, read, recognised, window, Option.bind_eq_bind, Option.bind_some,
          instr, added]
        exact ran
      · simpa using final
      · exact filled.text.trans text
      · exact filled.backup.trans backup
      · exact filled.output.trans output
      · have bound := filled.measure
        have rest : s2.input = s1.input := rfl
        rw [rest] at bound
        simp only [List.length_append, List.length_cons] at bound ⊢
        omega
      · intro few
        exact ended (Nat.lt_of_succ_lt_succ few)

theorem fillWindow (gen : Gen) (stale : Nat → Stale) (held : Held s w b pool) :
    ∃ s' w' pool', fillWindow gen stale gen.minWindowSize s = some s' ∧ Held s' w' b pool' ∧
      Filled s s' w w' ∧ (w' = [] → s'.input = []) := by
  obtain ⟨s', new, pool', ran, kept, filled, ended⟩ :=
    held.fill gen stale (gen.minWindowSize - s.window.qlen)
  refine ⟨s', w ++ new, pool', ran, kept, filled, fun none => ended ?_⟩
  obtain ⟨rfl, rfl⟩ := List.append_eq_nil_iff.mp none
  have zero : s.window.qlen = 0 := held.window.qlen
  have positive : 0 < gen.minWindowSize := Nat.succ_pos _
  rw [zero]
  exact positive

/-- Replacing a pattern that fits the window, if the new lines fit their arrays. -/
theorem xform (stale : Nat → Stale) {p : PatternDescr} {first rest : List Ptr}
    (held : Held s (first ++ rest) b pool)
    (length : first.length = p.pat.length)
    (fits : ∀ line ∈ generated gen p s, line.length ≤ gen.maxLineLen) :
    ∃ s' new pool', xform gen stale p s = some s' ∧ Held s' (new ++ rest) b pool' ∧
      new.length = p.repl.length ∧
      s'.text = s.output ++ (b.map s.heap.text).flatten ++
        (generated gen p s ++ rest.map s.heap.text).flatten ++ s.input := by
  have known : ∀ id ∈ p.repl, (genLine gen s.var s.any id).length ≤ gen.maxLineLen :=
    fun id member => fits _ (List.mem_map_of_mem member)
  obtain ⟨heap1, window1, pool1, removed, rep, text⟩ :=
    Held.removePattern p.pat.length held length
  obtain ⟨heap2, window2, new, pool2, replaced, final, lines, texts⟩ :=
    Held.replacement stale rep known
  let s' : Optimizer := { s with heap := heap2, window := window2 }
  have kept : Held s' (new ++ rest) b pool2 := final
  have inWindow : rest.map heap2.text = rest.map s.heap.text :=
    List.map_congr_left fun q member => (texts q (.inl member)).trans (congrFun text q)
  have inBackup : b.map heap2.text = b.map s.heap.text :=
    List.map_congr_left fun q member => (texts q (.inr member)).trans (congrFun text q)
  refine ⟨s', new, pool2, ?_, kept, ?_, ?_⟩
  · simp only [Top.xform, removed, replaced, Option.bind_eq_bind, Option.bind_some, s']
  · simpa using congrArg List.length lines
  · rw [kept.text_eq, List.map_append, lines, inWindow, inBackup]
    rfl

theorem xform_none {p : PatternDescr} (held : Held s w b pool) (length : p.pat.length ≤ w.length)
    {line : List Char} (member : line ∈ generated gen p s) (long : gen.maxLineLen < line.length) :
    Top.xform gen stale p s = none := by
  obtain ⟨id, inRepl, rfl⟩ := List.mem_map.mp member
  have split : Held s (w.take p.pat.length ++ w.drop p.pat.length) b pool := by
    rw [List.take_append_drop]
    exact held
  obtain ⟨heap1, window1, pool1, removed, -, -⟩ :=
    Held.removePattern p.pat.length split (List.length_take_of_le length)
  simp only [Top.xform, removed, replacement_none inRepl long, Option.bind_eq_bind,
    Option.bind_some, Option.bind_none]

/-- The back-up queue and a window that is not empty, if that is not, make the next window. -/
theorem join (held : Held s w b pool) (filled : w = [] → b = []) :
    ∃ s', join s = some s' ∧ Held s' (b ++ w) [] pool ∧ s'.text = s.text := by
  obtain ⟨heap', backup', window', joined, rep, text⟩ := Rep.join held filled
  let s' : Optimizer := { s with heap := heap', backup := backup', window := window' }
  have kept : Held s' (b ++ w) [] pool := rep
  have texts : s'.heap.text = s.heap.text := text
  refine ⟨s', ?_, kept, ?_⟩
  · simp only [Top.join, joined, Option.map_some, s']
  · rw [kept.text_eq, held.text_eq, texts]
    simp [s']

theorem join_none (held : Held s [] b pool) (filled : b ≠ []) : Top.join s = none := by
  simp only [Top.join, held.backup.joinQueues_none held.window filled, Option.map_none]

end Held

/-- A turn is the search, and then the replacement or the shift. -/
theorem turn_eq (s : Optimizer) :
    turn gen stale s = (findPattern gen s).bind fun result =>
      (match result.1 with
        | none => shift gen result.2
        | some p => (xform gen stale p result.2).bind join).bind
      fun s => fillWindow gen stale gen.minWindowSize s := by
  unfold turn
  rw [tryWindow_eq]
  cases findPattern gen s with
  | none => rfl
  | some result =>
    obtain ⟨found, middle⟩ := result
    cases found with
    | none => rfl
    | some p =>
      simp only [Option.bind_some]
      cases xform gen stale p middle <;> rfl

namespace Held

variable {s s' : Optimizer} {w b pool : List Ptr}

/-- A turn in which no pattern matches keeps the text and brings the end nearer. -/
theorem turn_unmatched (stale : Nat → Stale) {middle : Optimizer} (held : Held s w b pool)
    (filled : w ≠ [])
    (searched : findPattern gen s = some (none, middle)) :
    ∃ s' w' b' pool', turn gen stale s = some s' ∧ Held s' w' b' pool' ∧
      (w' = [] → s'.input = []) ∧ s'.text = s.text ∧
      2 * s'.input.length + w'.length < 2 * s.input.length + w.length := by
  obtain ⟨same, -⟩ := held.findPattern_spec searched
  have after := held.searched same
  have unchanged : middle.text = s.text := by
    rw [after.text_eq, held.text_eq, same.heap.text, same.output, same.input]
  obtain ⟨p, rest, rfl⟩ := List.exists_cons_of_ne_nil filled
  obtain ⟨s1, b1, pool1, shifted, kept, text1, input1⟩ := after.shift gen
  obtain ⟨s2, w2, pool2, ran, final, read, ended⟩ :=
    kept.fillWindow gen stale
  refine ⟨s2, w2, b1, pool2, ?_, final, ended, read.text.trans (text1.trans unchanged), ?_⟩
  · rw [turn_eq, searched, Option.bind_some]
    simp only [shifted]
    exact ran
  · have bound := read.measure
    rw [input1, same.input] at bound
    rw [List.length_cons]
    omega

/-- A turn is defined on what the queues hold, and rewrites the text. -/
theorem turn (stale : Nat → Stale) (held : Held s w b pool) (filled : w ≠ []) (proper : Proper gen s) :
    ∃ s' w' b' pool', turn gen stale s = some s' ∧ Held s' w' b' pool' ∧
      (w' = [] → s'.input = []) ∧ Rewrites gen s s' := by
  obtain ⟨found, middle, searched, safe⟩ := proper
  cases found with
  | none =>
    obtain ⟨s', w', b', pool', ran, final, ended, text, -⟩ :=
      held.turn_unmatched stale filled searched
    exact ⟨s', w', b', pool', ran, final, ended, none, middle, searched, text⟩
  | some p =>
    obtain ⟨same, fits⟩ := held.findPattern_spec searched
    have after := held.searched same
    have texts : middle.heap.text = s.heap.text := same.heap.text
    obtain ⟨short, once⟩ := safe p rfl
    obtain ⟨member, length⟩ := fits p rfl
    have split : Held middle (w.take p.pat.length ++ w.drop p.pat.length) b pool := by
      rw [List.take_append_drop]
      exact after
    obtain ⟨s1, new, pool1, replaced, kept, count, text1⟩ :=
      split.xform stale (List.length_take_of_le length) short
    have nonempty : new ++ w.drop p.pat.length = [] → b = [] := by
      intro none
      obtain ⟨rfl, dropped⟩ := List.append_eq_nil_iff.mp none
      have all : w.length ≤ p.pat.length := List.drop_eq_nil_iff.mp dropped
      have whole : p.pat.length = s.window.qlen := by
        rw [held.window.qlen]
        exact Nat.le_antisymm length all
      have bare : p.repl = [] := List.length_eq_zero_iff.mp count.symm
      exact held.backup.eq_nil_iff.mp (once bare whole)
    obtain ⟨s2, joined, kept2, text2⟩ := kept.join nonempty
    obtain ⟨s3, w3, pool3, ran, final, read, ended⟩ :=
      kept2.fillWindow gen stale
    refine ⟨s3, w3, [], pool3, ?_, final, ended, some p, middle, searched, member,
      (w.take p.pat.length).map s.heap.text, (w.drop p.pat.length).map s.heap.text, ?_, ?_, ?_⟩
    · rw [turn_eq, searched, Option.bind_some]
      simp only [replaced, joined, Option.bind_some]
      exact ran
    · rw [held.windowLines_eq, ← List.map_append, List.take_append_drop]
    · rw [List.length_map, List.length_take_of_le length]
    · rw [read.text, text2, text1, texts, same.output, same.input, held.backupLines_eq]

/-- A turn that ends has met the condition. -/
theorem proper_of_turn (held : Held s w b pool) (ran : Top.turn gen stale s = some s') :
    Proper gen s := by
  rw [turn_eq] at ran
  obtain ⟨⟨found, middle⟩, searched, rest⟩ := Option.bind_eq_some_iff.mp ran
  obtain ⟨same, fits⟩ := held.findPattern_spec searched
  have after := held.searched same
  refine ⟨found, middle, searched, ?_⟩
  rintro p rfl
  obtain ⟨-, length⟩ := fits p rfl
  obtain ⟨s2, joinRan, -⟩ := Option.bind_eq_some_iff.mp rest
  obtain ⟨s1, replaced, joined⟩ := Option.bind_eq_some_iff.mp joinRan
  have short : ∀ line ∈ generated gen p middle, line.length ≤ gen.maxLineLen := by
    intro line member
    by_contra long
    rw [after.xform_none length member (Nat.lt_of_not_le long)] at replaced
    cases replaced
  refine ⟨short, fun bare whole => ?_⟩
  have split : Held middle (w.take p.pat.length ++ w.drop p.pat.length) b pool := by
    rw [List.take_append_drop]
    exact after
  obtain ⟨s1', new, pool1, replaced', kept, count, -⟩ :=
    split.xform stale (List.length_take_of_le length) short
  cases replaced.symm.trans replaced'
  have noNew : new = [] := List.length_eq_zero_iff.mp (count.trans (congrArg List.length bare))
  have dropped : w.drop p.pat.length = [] := by
    rw [whole, held.window.qlen]
    exact List.drop_length
  rw [noNew, dropped] at kept
  by_contra left
  have some' : b ≠ [] := fun none => left (held.backup.eq_nil_iff.mpr none)
  rw [kept.join_none some'] at joined
  cases joined

end Held

inductive Reached (gen : Gen) (stale : Nat → Stale) (input : Text) : Optimizer → Prop
  | start {s : Optimizer} (ran : start gen stale input = some s) : Reached gen stale input s
  | turn {s s' : Optimizer} (before : Reached gen stale input s) (more : empty s.window = false)
      (ran : turn gen stale s = some s') : Reached gen stale input s'

theorem held_initial (stale : Nat → Stale) (input : Text) : Held (initial stale input) [] [] [] where
  window := .nil _
  backup := .nil _
  free := rfl
  linked := trivial
  windowBackup := fun _ none => nomatch none
  windowPool := fun _ none => nomatch none
  backupPool := fun _ none => nomatch none
  windowKnown := fun _ none => nomatch none
  backupKnown := fun _ none => nomatch none
  poolKnown := fun _ none => nomatch none

theorem empty_iff {s : Optimizer} {w b pool : List Ptr} (held : Held s w b pool) :
    empty s.window = true ↔ w = [] := by
  rw [← held.window.eq_nil_iff]
  exact beq_iff_eq

theorem held_start (gen : Gen) (stale : Nat → Stale) (input : Text) :
    ∃ s w pool, start gen stale input = some s ∧ Held s w [] pool ∧
      Filled (initial stale input) s [] w ∧ (w = [] → s.input = []) :=
  (held_initial stale input).fillWindow gen stale

theorem Reached.held {input : Text} {s : Optimizer} (reached : Reached gen stale input s) :
    ∃ w b pool, Held s w b pool ∧ (w = [] → s.input = []) := by
  induction reached with
  | start ran =>
    obtain ⟨s', w, pool, ran', held, -, ended⟩ := held_start gen stale input
    cases ran.symm.trans ran'
    exact ⟨w, [], pool, held, ended⟩
  | turn before more ran ih =>
    obtain ⟨w, b, pool, held, -⟩ := ih
    have filled : w ≠ [] := by
      rintro rfl
      rw [(empty_iff held).mpr rfl] at more
      cases more
    obtain ⟨s', w', b', pool', ran', held', ended, -⟩ :=
      held.turn stale filled (held.proper_of_turn ran)
    cases ran.symm.trans ran'
    exact ⟨w', b', pool', held', ended⟩

/-!
## Runs of the optimizer

The results about a whole run: when a turn is defined and what it does to the text, what the
end of the loop writes, and that a run without patterns copies its input. A match that takes
the last lines of the file away, while earlier lines wait in the back-up queue, is where a
turn fails.
-/

variable {input : Text} {s : Optimizer}

theorem held_start_text (ran : start gen stale input = some s) : s.text = input.chars := by
  obtain ⟨s', w, pool, ran', -, filled, -⟩ := held_start gen stale input
  cases ran.symm.trans ran'
  rw [filled.text]
  rfl

/-- Once the window is empty the rest of the text is written. -/
theorem flush_text (reached : Reached gen stale input s) (none : empty s.window = true) :
    ∃ s', flush s.backup.qlen s = some s' ∧ s'.output = s.text := by
  obtain ⟨w, b, pool, held, ended⟩ := reached.held
  have noWindow : w = [] := (empty_iff held).mp none
  subst noWindow
  obtain ⟨s', pool', ran, final, text, -, input⟩ := held.flush
  refine ⟨s', ?_, ?_⟩
  · rw [held.backup.qlen]
    exact ran
  · rw [← text, final.text_eq, input, ended rfl]
    simp

theorem found_none {w b pool : List Ptr} (held : Held s w b pool) (bare : gen.patterns = [])
    {found : Option PatternDescr} {middle : Optimizer}
    (searched : findPattern gen s = some (found, middle)) : found = none := by
  cases found with
  | none => rfl
  | some p =>
    obtain ⟨member, -⟩ := (held.findPattern_spec searched).2 p rfl
    rw [bare] at member
    cases member

/-- Without patterns the loop ends, and what is written in the end is the text it began with. -/
theorem run_bare (bare : gen.patterns = [])
    (proper : ∀ s, Reached gen stale input s → empty s.window = false → Proper gen s)
    {w b pool : List Ptr} (reached : Reached gen stale input s) (held : Held s w b pool) :
    ∃ fuel s', run gen stale fuel s = some s' ∧ s'.output = s.text := by
  induction bound : 2 * s.input.length + w.length using Nat.strongRecOn generalizing s w b pool with
  | ind measure ih =>
    cases none : empty s.window with
    | true =>
      obtain ⟨s', ran, output⟩ := flush_text reached none
      exact ⟨1, s', by rw [run, if_pos none, ran], output⟩
    | false =>
      have filled : w ≠ [] := by
        rintro rfl
        rw [(empty_iff held).mpr rfl] at none
        cases none
      obtain ⟨found, middle, searched, -⟩ := proper s reached none
      cases found_none held bare searched
      obtain ⟨s1, w1, b1, pool1, ran, final, -, text, less⟩ :=
        held.turn_unmatched stale filled searched
      rw [bound] at less
      obtain ⟨fuel, s', later, output⟩ := ih _ less (reached.turn none ran) final rfl
      refine ⟨fuel + 1, s', ?_, output.trans text⟩
      rw [run, if_neg (by rw [none]; exact Bool.false_ne_true), ran]
      exact later

/-- The loop starts with the text of the input. A turn is defined and rewrites what a pattern of
the table matches exactly in the proper states. The text of the state in which the loop ends is
written, and without patterns it is the input. -/
theorem optimize_rewrites_iff (gen : Gen) (stale : Nat → Stale) (input : Text) :
    (∃ s, start gen stale input = some s ∧ s.text = input.chars) ∧
    (∀ s, Reached gen stale input s →
      (empty s.window = true → ∃ s', flush s.backup.qlen s = some s' ∧ s'.output = s.text) ∧
      (empty s.window = false →
        ((∃ s', turn gen stale s = some s' ∧ Rewrites gen s s') ↔ Proper gen s))) ∧
    (gen.patterns = [] →
      (∀ s, Reached gen stale input s → empty s.window = false → Proper gen s) →
      ∃ fuel, optimize gen stale fuel input = some input.chars) := by
  obtain ⟨s0, w0, pool0, started, held0, -, -⟩ := held_start gen stale input
  refine ⟨⟨s0, started, held_start_text started⟩, fun s reached => ⟨flush_text reached, ?_⟩, ?_⟩
  · intro more
    obtain ⟨w, b, pool, held, -⟩ := reached.held
    have filled : w ≠ [] := by
      rintro rfl
      rw [(empty_iff held).mpr rfl] at more
      cases more
    constructor
    · rintro ⟨s', ran, -⟩
      exact held.proper_of_turn ran
    · intro proper
      obtain ⟨s', w', b', pool', ran, -, -, rewrites⟩ := held.turn stale filled proper
      exact ⟨s', ran, rewrites⟩
  · intro bare proper
    obtain ⟨fuel, s', ran, output⟩ := run_bare bare proper (.start started) held0
    refine ⟨fuel, ?_⟩
    simp only [optimize, started, ran, Option.bind_eq_bind, Option.bind_some]
    rw [output, held_start_text started]

/-- A table with the one pattern that takes away a move of a register to itself. -/
def moveTable : Gen where
  patterns := [⟨[⟨some ['m', 'r'], [⟨[], some 1, []⟩, ⟨[], some 1, []⟩]⟩], []⟩]
  hashtab index := if index = 125 then [0] else []
  hashany := []
  hashtab_lt := by
    intro index number member
    split at member
    · exact List.mem_singleton.mp member ▸ Nat.one_pos
    · cases member
  hashany_lt := fun _ none => nomatch none
  tokChk _ value := some (true, value)
  checkConstraint _ values _ := some (true, values)
  opSeparator := ','
  labelTerminator := ':'
  labelStarter := '.'
  opcTerminator := ' '
  parenOpen := []
  parenClose := []
  maxOpcLen := 10
  maxOpLen := 25
  maxOp := 2
  maxLineLen := 100
  maxVarLen := 25
  line_pos := by decide
  labdef_fits := by decide

def clean (_ : Nat) : Stale := ⟨none, false⟩

/-- `sc`, and a move of a register to itself after it. -/
def callAndMove : Text where
  chars := ['s', 'c', '\n', 'm', 'r', ' ', '3', ',', '3', '\n']
  byte := by simp

/-- The move at the end of the file matches while `sc` waits in the back-up queue; joining the queues
then writes through the null pointer of the empty window. -/
theorem moveTable_turn_none :
    ∃ s, Reached moveTable clean callAndMove s ∧ empty s.window = false ∧
      turn moveTable clean s = none := by
  let s0 := (start moveTable clean callAndMove).get (by decide +kernel)
  let s1 := (turn moveTable clean s0).get (by decide +kernel)
  have first : start moveTable clean callAndMove = some s0 := (Option.some_get _).symm
  have second : turn moveTable clean s0 = some s1 := (Option.some_get _).symm
  refine ⟨s1, .turn (.start first) (by decide +kernel) second, by decide +kernel, ?_⟩
  exact Option.isNone_iff_eq_none.mp (by decide +kernel)

def moveAlone : Text where
  chars := ['m', 'r', ' ', '3', ',', '3', '\n']
  byte := by simp

/-- The move alone is taken away as it should be: the back-up queue is empty. -/
theorem moveTable_rewrites :
    ∃ s s', Reached moveTable clean moveAlone s ∧ turn moveTable clean s = some s' ∧
      Rewrites moveTable s s' := by
  let s0 := (start moveTable clean moveAlone).get (by decide +kernel)
  let s1 := (turn moveTable clean s0).get (by decide +kernel)
  have reached : Reached moveTable clean moveAlone s0 := .start (Option.some_get _).symm
  have ran : turn moveTable clean s0 = some s1 := (Option.some_get _).symm
  obtain ⟨w, b, pool, held, -⟩ := reached.held
  have proper : Proper moveTable s0 := held.proper_of_turn ran
  obtain ⟨s', ran', rewrites⟩ :=
    (((optimize_rewrites_iff moveTable clean moveAlone).2.1 s0 reached).2 (by decide +kernel)).mpr proper
  exact ⟨s0, s', reached, ran', rewrites⟩

end AckFormal.Top
