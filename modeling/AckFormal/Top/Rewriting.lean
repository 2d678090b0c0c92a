import AckFormal.Top.Ownership

/-!
# What a turn of the optimizer does to the text

The text of a state is what was written, what the back-up queue and the window hold and what
was not read. A turn keeps it, but for the lines that a pattern replaces.
-/

namespace AckFormal.Top

open Lib.Links
open Option (bind_eq_bind bind_none bind_some)

variable (gen : Gen)

namespace Optimizer

variable (s : Optimizer)

def windowLines : List (List Char) :=
  (walk s.heap.next s.window.qlen s.window.head).map s.heap.text

def backupLines : List (List Char) :=
  (walk s.heap.next s.backup.qlen s.backup.head).map s.heap.text

def text : List Char := s.output ++ s.backupLines.flatten ++ s.windowLines.flatten ++ s.input

end Optimizer

/-- The pattern that is replaced in a state, if there is one, and the state after the search. -/
def findPattern (s : Optimizer) : Option (Option PatternDescr × Optimizer) := do
  let index ← hashIndex s
  let (found, s) ← search gen (gen.hashtab index) s
  match found with
  | some p => some (some p, s)
  | none => search gen gen.hashany s

def generated (p : PatternDescr) (s : Optimizer) : List (List Char) :=
  p.repl.map (genLine gen s.var s.any)

/-- The search stays within its arrays and its expressions have values, the lines of the replacement
fit, and a match that takes the whole window and puts nothing back finds the back-up queue empty. -/
def Proper (s : Optimizer) : Prop :=
  ∃ found after, findPattern gen s = some (found, after) ∧
    ∀ p, found = some p → (∀ line ∈ generated gen p after, line.length ≤ gen.maxLineLen) ∧
      (p.repl = [] → p.pat.length = s.window.qlen → s.backup.qlen = 0)

/-- The text is the same, but for the lines that a matching pattern of the table replaces at
the front of the window. -/
def Rewrites (s s' : Optimizer) : Prop :=
  ∃ found after, findPattern gen s = some (found, after) ∧
    match found with
    | none => s'.text = s.text
    | some p =>
      p ∈ gen.patterns ∧ ∃ matched rest, s.windowLines = matched ++ rest ∧
        matched.length = p.pat.length ∧
        s'.text =
          s.output ++ s.backupLines.flatten ++ (generated gen p after ++ rest).flatten ++ s.input

def Held (s : Optimizer) (w b pool : List Ptr) : Prop := Rep s.heap s.window s.backup w b pool

namespace Held

variable {gen : Gen} {stale : Nat → Stale} {s : Optimizer} {w b pool : List Ptr}

theorem windowLines_eq (held : Held s w b pool) : s.windowLines = w.map s.heap.text := by
  rw [Optimizer.windowLines, held.window.walk_eq]

theorem backupLines_eq (held : Held s w b pool) : s.backupLines = b.map s.heap.text := by
  rw [Optimizer.backupLines, held.backup.walk_eq]

theorem text_eq (held : Held s w b pool) :
    s.text = s.output ++ (b.map s.heap.text).flatten ++ (w.map s.heap.text).flatten ++ s.input := by
  rw [Optimizer.text, held.windowLines_eq, held.backupLines_eq]

theorem searched {s' : Optimizer} (held : Held s w b pool) (same : s.Same s') : Held s' w b pool := by
  have holds : Holds s'.heap s.window w := held.window.frame same.heap fun _ _ => List.not_mem_nil
  have rep := held.relink same.heap holds (fun _ _ => List.not_mem_nil)
    (fun _ _ => List.not_mem_nil) held.windowBackup held.windowPool held.windowKnown
  unfold Held
  rw [same.window, same.backup]
  exact rep

variable {heap : Heap} {window backup : Queue} {var : Nat → Variable} {any : Variable}

theorem removePattern (patlen : Nat) {first rest : List Ptr}
    (rep : Rep heap window backup (first ++ rest) b pool) (length : first.length = patlen) :
    ∃ heap' window' pool', removePattern patlen heap window = some (heap', window') ∧
      Rep heap' window' backup rest b pool' ∧ heap'.text = heap.text := by
  induction patlen generalizing heap window first pool with
  | zero =>
    cases List.length_eq_zero_iff.mp length
    exact ⟨heap, window, pool, rfl, rep, rfl⟩
  | succ patlen ih =>
    cases first with
    | nil => cases length
    | cons p first =>
      have head : window.head = some p := rep.window.head
      obtain ⟨heap1, window1, removed, popped, loose, text⟩ := rep.pop
      obtain ⟨heap2, window2, pool2, ran, final, text2⟩ :=
        ih (popped.release loose) (Nat.succ.inj length)
      refine ⟨heap2, window2, pool2, ?_, final, ?_⟩
      · simp only [Top.removePattern, head, removed]
        exact ran
      · rw [text2, Rep.release_text, text]

/-- A generated instruction is loose and has the line of its description. -/
theorem genInstr (stale : Nat → Stale) (rep : Rep heap window backup w b pool) {id : InstrDescr}
    (fits : (genLine gen var any id).length ≤ gen.maxLineLen) :
    ∃ heap' p pool', genInstr gen stale var any id heap = some (heap', p) ∧
      Rep heap' window backup w b pool' ∧ Loose heap' p w b pool' ∧
      heap'.text p = genLine gen var any id ∧ (∀ q, q ≠ p → heap'.text q = heap.text q) := by
  obtain ⟨heap1, p, pool', new, taken, loose, -, texts⟩ := rep.take gen.maxOp stale
  let instr : Instruction := { heap1.node p with
    line := genLine gen var any id, restLine := some (genLine gen var any id) }
  have ends : '\n' ∈ genLine gen var any id := by
    exact List.mem_append_right _ (List.mem_singleton.mpr rfl)
  obtain ⟨instr', recognised⟩ := setOpcode_isSome gen instr fun _ => ends
  have line : instr'.line = genLine gen var any id := (setOpcode_same recognised).line
  refine ⟨heap1.set p instr', p, pool', ?_, taken.write loose instr', ?_, ?_, ?_⟩
  · simp only [Top.genInstr, new, if_neg (Nat.not_lt.mpr fits)]
    exact Option.map_eq_some_iff.mpr ⟨instr', recognised, rfl⟩
  · exact ⟨loose.window, loose.backup, loose.pool, loose.known⟩
  · simp only [Heap.text, Heap.set, Function.update_self, line]
  · intro q apart
    rw [← texts q apart]
    simp only [Heap.text, Heap.set, Function.update_of_ne apart]

/-- The generated instructions are put before the window in their order. -/
theorem replacement (stale : Nat → Stale) {repl : List InstrDescr}
    (rep : Rep heap window backup w b pool)
    (fits : ∀ id ∈ repl, (genLine gen var any id).length ≤ gen.maxLineLen) :
    ∃ heap' window' new pool',
      replacement gen stale var any repl heap window = some (heap', window') ∧
      Rep heap' window' backup (new ++ w) b pool' ∧ new.map heap'.text = repl.map (genLine gen var any) ∧
      ∀ q, q ∈ w ∨ q ∈ b → heap'.text q = heap.text q := by
  induction repl with
  | nil => exact ⟨heap, window, [], pool, rfl, rep, rfl, fun _ _ => rfl⟩
  | cons id repl ih =>
    obtain ⟨heap1, window1, new, pool1, ran, later, lines, texts⟩ :=
      ih fun other member => fits other (List.mem_cons_of_mem id member)
    obtain ⟨heap2, p, pool2, made, kept, loose, line, texts2⟩ :=
      genInstr stale later (fits id List.mem_cons_self)
    obtain ⟨heap3, window3, inserted, final, same⟩ := kept.unshift loose
    have apart (q : Ptr) (member : q ∈ new ++ w ∨ q ∈ b) : q ≠ p := by
      rintro rfl
      exact member.elim loose.window loose.backup
    refine ⟨heap3, window3, p :: new, pool2, ?_, final, ?_, ?_⟩
    · simp only [Top.replacement, ran, made, bind_eq_bind, bind_some]
      exact inserted
    · have others : new.map heap3.text = new.map heap1.text := by
        refine List.map_congr_left fun q member => ?_
        rw [same, texts2 q (apart q (.inl (List.mem_append_left w member)))]
      rw [List.map_cons, List.map_cons, others, lines, same, line]
    · intro q member
      have held : q ∈ new ++ w ∨ q ∈ b := member.imp_left (List.mem_append_right new)
      rw [same, texts2 q (apart q held), texts q member]

theorem replacement_none {repl : List InstrDescr} {id : InstrDescr} (member : id ∈ repl)
    (long : gen.maxLineLen < (genLine gen var any id).length) :
    Top.replacement gen stale var any repl heap window = none := by
  induction repl with
  | nil => cases member
  | cons first repl ih =>
    cases before : Top.replacement gen stale var any repl heap window with
    | none => simp only [Top.replacement, before, bind_eq_bind, bind_none]
    | some result =>
      rcases List.mem_cons.mp member with rfl | later
      · simp only [Top.replacement, before, bind_eq_bind, bind_some, Top.genInstr,
          if_pos long, bind_none]
      · cases before.symm.trans (ih later)

end Held

theorem tryWindow_eq (stale : Nat → Stale) (s : Optimizer) :
    tryWindow gen stale s = (findPattern gen s).bind fun result =>
      match result.1 with
      | none => some (false, result.2)
      | some p => (xform gen stale p result.2).map (true, ·) := by
  unfold tryWindow findPattern tryHashentry
  cases hashIndex s with
  | none => rfl
  | some index =>
    simp only [bind_eq_bind, bind_some]
    cases search gen (gen.hashtab index) s with
    | none => rfl
    | some first =>
      obtain ⟨found, middle⟩ := first
      cases found with
      | some p =>
        simp only [bind_some]
        cases xform gen stale p middle <;> rfl
      | none =>
        cases search gen gen.hashany middle <;> rfl

namespace Held

variable {gen} {stale : Nat → Stale} {s s' : Optimizer} {w b pool : List Ptr}

/-- What is found is a pattern of the table that fits the window. -/
theorem findPattern_spec (held : Held s w b pool) {found : Option PatternDescr}
    (ran : findPattern gen s = some (found, s')) :
    s.Same s' ∧ ∀ p, found = some p → p ∈ gen.patterns ∧ p.pat.length ≤ w.length := by
  obtain ⟨index, -, rest⟩ := Option.bind_eq_some_iff.mp ran
  obtain ⟨⟨first, middle⟩, searched, last⟩ := Option.bind_eq_some_iff.mp rest
  obtain ⟨same, fits⟩ := search_spec held.window searched
  cases first with
  | some p =>
    cases last
    exact ⟨same, fits⟩
  | none =>
    obtain ⟨later, fits⟩ := search_spec (held.searched same).window last
    exact ⟨same.trans later, fits⟩

theorem writeFirst {p : Ptr} (held : Held s w (p :: b) pool) :
    ∃ s' pool', writeFirst s = some s' ∧ Held s' w b pool' ∧ s'.text = s.text ∧
      s'.window = s.window ∧ s'.input = s.input := by
  have head : s.backup.head = some p := held.backup.head
  obtain ⟨heap1, backup1, removed, popped, loose, text⟩ := held.swap.pop
  have released := (popped.release loose).swap
  let after : Optimizer := { s with
    heap := oldinstr heap1 p, backup := backup1, output := s.output ++ s.heap.text p }
  have final : Held after w b (p :: pool) := released
  refine ⟨after, p :: pool, ?_, final, ?_, rfl, rfl⟩
  · simp only [Top.writeFirst, head, removed, bind_eq_bind, bind_some, after]
  · have texts : after.heap.text = s.heap.text := Rep.release_text.trans text
    rw [final.text_eq, held.text_eq, texts]
    simp [after]

/-- The first instruction of the window goes to the back-up queue. -/
theorem shift (gen : Gen) {p : Ptr} (held : Held s (p :: w) b pool) :
    ∃ s' b' pool', shift gen s = some s' ∧ Held s' w b' pool' ∧ s'.text = s.text ∧
      s'.input = s.input := by
  have head : s.window.head = some p := held.window.head
  obtain ⟨heap1, window1, removed, popped, loose, text1⟩ := held.pop
  have swapped : Loose heap1 p b w pool := ⟨loose.backup, loose.window, loose.pool, loose.known⟩
  obtain ⟨heap2, backup2, added, pushed, text2⟩ := popped.swap.push swapped
  let moved : Optimizer := { s with heap := heap2, window := window1, backup := backup2 }
  have final : Held moved w (b ++ [p]) pool := pushed.swap
  have texts : moved.heap.text = s.heap.text := text2.trans text1
  have same : moved.text = s.text := by
    rw [final.text_eq, held.text_eq, texts]
    simp [moved]
  have step : Top.shift gen s =
      if gen.minWindowSize < moved.backup.qlen then Top.writeFirst moved else some moved := by
    simp only [Top.shift, head, removed, added, bind_eq_bind, bind_some, moved]
  by_cases long : gen.minWindowSize < moved.backup.qlen
  · obtain ⟨first, rest, split⟩ : ∃ first rest, b ++ [p] = first :: rest :=
      List.exists_cons_of_ne_nil (by simp)
    rw [split] at final
    obtain ⟨s', pool', wrote, after, text, -, input⟩ := final.writeFirst
    exact ⟨s', rest, pool', by rw [step, if_pos long, wrote], after, text.trans same, input⟩
  · exact ⟨moved, b ++ [p], pool, by rw [step, if_neg long], final, same, rfl⟩

theorem flush (held : Held s w b pool) :
    ∃ s' pool', flush b.length s = some s' ∧ Held s' w [] pool' ∧ s'.text = s.text ∧
      s'.window = s.window ∧ s'.input = s.input := by
  induction b generalizing s pool with
  | nil => exact ⟨s, pool, rfl, held, rfl, rfl, rfl⟩
  | cons p b ih =>
    obtain ⟨s1, pool1, wrote, after, text, window, input⟩ := held.writeFirst
    obtain ⟨s2, pool2, ran, final, text2, window2, input2⟩ := ih after
    refine ⟨s2, pool2, ?_, final, text2.trans text, window2.trans window, input2.trans input⟩
    simp only [List.length_cons, Top.flush, wrote]
    exact ran

end Held

end AckFormal.Top
