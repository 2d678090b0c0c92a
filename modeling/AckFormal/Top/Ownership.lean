import AckFormal.Top.Searching

/-!
# Who holds an instruction

Every instruction that was made is in the window, in the back-up queue, in the pool or in
nobody's list. The operations on the queues move instructions from one to another and leave the
lines of the others as they were.
-/

namespace AckFormal.Top

open Lib.Links
open List (mem_append mem_cons mem_cons_of_mem mem_cons_self mem_singleton not_mem_nil)

/-- The window, the back-up queue and the pool hold these instructions, no one of them
twice. -/
structure Rep (heap : Heap) (window backup : Queue) (w b pool : List Ptr) : Prop where
  window : Holds heap window w
  backup : Holds heap backup b
  free : heap.pool = pool.head?
  linked : Follows heap.next pool none
  windowBackup : ∀ p ∈ w, p ∉ b
  windowPool : ∀ p ∈ w, p ∉ pool
  backupPool : ∀ p ∈ b, p ∉ pool
  windowKnown : ∀ p ∈ w, p < heap.fresh
  backupKnown : ∀ p ∈ b, p < heap.fresh
  poolKnown : ∀ p ∈ pool, p < heap.fresh

structure Loose (heap : Heap) (p : Ptr) (w b pool : List Ptr) : Prop where
  window : p ∉ w
  backup : p ∉ b
  pool : p ∉ pool
  known : p < heap.fresh

namespace Rep

variable {heap heap' : Heap} {window backup : Queue} {w b pool changed : List Ptr} {p : Ptr}

theorem swap (rep : Rep heap window backup w b pool) : Rep heap backup window b w pool where
  window := rep.backup
  backup := rep.window
  free := rep.free
  linked := rep.linked
  windowBackup := fun p inBackup inWindow => rep.windowBackup p inWindow inBackup
  windowPool := rep.backupPool
  backupPool := rep.windowPool
  windowKnown := rep.backupKnown
  backupKnown := rep.windowKnown
  poolKnown := rep.poolKnown

/-- A change of links outside the back-up queue and the pool, with a new window. -/
theorem relink (rep : Rep heap window backup w b pool) {window' : Queue} {w' : List Ptr}
    (relinked : Heap.Relinked heap heap' changed) (holds : Holds heap' window' w')
    (outBackup : ∀ p ∈ b, p ∉ changed) (outPool : ∀ p ∈ pool, p ∉ changed)
    (apartBackup : ∀ p ∈ w', p ∉ b) (apartPool : ∀ p ∈ w', p ∉ pool)
    (known : ∀ p ∈ w', p < heap.fresh) : Rep heap' window' backup w' b pool where
  window := holds
  backup := rep.backup.frame relinked outBackup
  free := relinked.pool.trans rep.free
  linked := follows_congr (fun p member => relinked.next p (outPool p member)) rep.linked
  windowBackup := apartBackup
  windowPool := apartPool
  backupPool := rep.backupPool
  windowKnown := by
    rw [relinked.fresh]
    exact known
  backupKnown := by
    rw [relinked.fresh]
    exact rep.backupKnown
  poolKnown := by
    rw [relinked.fresh]
    exact rep.poolKnown

/-- The first instruction of the window is taken out of it. -/
theorem pop (rep : Rep heap window backup (p :: w) b pool) :
    ∃ heap' window', removeHead heap window = some (heap', window') ∧
      Rep heap' window' backup w b pool ∧ Loose heap' p w b pool ∧ heap'.text = heap.text := by
  obtain ⟨heap', window', removed, holds, relinked⟩ := rep.window.removeHead
  have distinct := List.nodup_cons.mp (follows_nodup rep.window.linked)
  have within (q : Ptr) (member : q ∈ w) : q ∈ p :: w := mem_cons_of_mem p member
  refine ⟨heap', window', removed, ?_, ?_, relinked.text⟩
  · exact rep.relink relinked holds (fun _ _ => not_mem_nil) (fun _ _ => not_mem_nil)
      (fun q member => rep.windowBackup q (within q member))
      (fun q member => rep.windowPool q (within q member))
      (fun q member => rep.windowKnown q (within q member))
  · refine ⟨distinct.1, rep.windowBackup p mem_cons_self, rep.windowPool p mem_cons_self, ?_⟩
    rw [relinked.fresh]
    exact rep.windowKnown p mem_cons_self

section

variable (rep : Rep heap window backup w b pool)
include rep

/-- A loose instruction is put at the end of the window. -/
theorem push (loose : Loose heap p w b pool) :
    ∃ heap' window', add heap window p = some (heap', window') ∧
      Rep heap' window' backup (w ++ [p]) b pool ∧ heap'.text = heap.text := by
  obtain ⟨heap', window', added, holds, relinked⟩ := rep.window.add loose.window
  refine ⟨heap', window', added, rep.relink relinked holds ?_ ?_ ?_ ?_ ?_, relinked.text⟩
  · intro q member
    simp only [mem_append, mem_singleton, not_or]
    exact ⟨fun inWindow => rep.windowBackup q inWindow member, fun same => loose.backup (same ▸ member)⟩
  · intro q member
    simp only [mem_append, mem_singleton, not_or]
    exact ⟨fun inWindow => rep.windowPool q inWindow member, fun same => loose.pool (same ▸ member)⟩
  · intro q member
    rcases mem_append.mp member with old | new
    · exact rep.windowBackup q old
    · exact mem_singleton.mp new ▸ loose.backup
  · intro q member
    rcases mem_append.mp member with old | new
    · exact rep.windowPool q old
    · exact mem_singleton.mp new ▸ loose.pool
  · intro q member
    rcases mem_append.mp member with old | new
    · exact rep.windowKnown q old
    · exact mem_singleton.mp new ▸ loose.known

/-- A loose instruction is put at the front of the window. -/
theorem unshift (loose : Loose heap p w b pool) :
    ∃ heap' window', insert heap window p = some (heap', window') ∧
      Rep heap' window' backup (p :: w) b pool ∧ heap'.text = heap.text := by
  obtain ⟨heap', window', inserted, holds, relinked⟩ := rep.window.insert loose.window
  refine ⟨heap', window', inserted, rep.relink relinked holds ?_ ?_ ?_ ?_ ?_, relinked.text⟩
  · intro q member
    exact fun same => loose.backup (mem_singleton.mp same ▸ member)
  · intro q member
    exact fun same => loose.pool (mem_singleton.mp same ▸ member)
  · intro q member
    rcases mem_cons.mp member with new | old
    · exact new ▸ loose.backup
    · exact rep.windowBackup q old
  · intro q member
    rcases mem_cons.mp member with new | old
    · exact new ▸ loose.pool
    · exact rep.windowPool q old
  · intro q member
    rcases mem_cons.mp member with new | old
    · exact new ▸ loose.known
    · exact rep.windowKnown q old

/-- The queues are joined, unless the second one alone is empty. -/
theorem join (filled : w = [] → b = []) :
    ∃ heap' backup' window', joinQueues heap backup window = some (heap', backup', window') ∧
      Rep heap' window' backup' (b ++ w) [] pool ∧ heap'.text = heap.text := by
  obtain ⟨heap', backup', window', joined, emptied, holds, relinked⟩ :=
    rep.backup.joinQueues rep.window rep.swap.windowBackup filled
  refine ⟨heap', backup', window', joined, ?_, relinked.text⟩
  have apartPool : ∀ p ∈ b ++ w, p ∉ pool := by
    intro p member
    rcases mem_append.mp member with inBackup | inWindow
    · exact rep.backupPool p inBackup
    · exact rep.windowPool p inWindow
  have known : ∀ p ∈ b ++ w, p < heap.fresh := by
    intro p member
    rcases mem_append.mp member with inBackup | inWindow
    · exact rep.backupKnown p inBackup
    · exact rep.windowKnown p inWindow
  have links : Follows heap'.next pool none :=
    follows_congr (fun p member => relinked.next p fun inBackup => rep.backupPool p inBackup member)
      rep.linked
  exact {
    window := holds
    backup := emptied
    free := relinked.pool.trans rep.free
    linked := links
    windowBackup := fun _ _ => not_mem_nil
    windowPool := apartPool
    backupPool := fun _ none => nomatch none
    windowKnown := by rw [relinked.fresh]; exact known
    backupKnown := fun _ none => nomatch none
    poolKnown := by rw [relinked.fresh]; exact rep.poolKnown }

theorem keep (next : ∀ p, p ∈ w ∨ p ∈ b ∨ p ∈ pool → heap'.next p = heap.next p)
    (free : heap'.pool = heap.pool) (fresh : heap.fresh ≤ heap'.fresh) :
    Rep heap' window backup w b pool where
  window := ⟨rep.window.qlen, rep.window.head, rep.window.tail,
    follows_congr (fun p member => next p (.inl member)) rep.window.linked⟩
  backup := ⟨rep.backup.qlen, rep.backup.head, rep.backup.tail,
    follows_congr (fun p member => next p (.inr (.inl member))) rep.backup.linked⟩
  free := free.trans rep.free
  linked := follows_congr (fun p member => next p (.inr (.inr member))) rep.linked
  windowBackup := rep.windowBackup
  windowPool := rep.windowPool
  backupPool := rep.backupPool
  windowKnown := fun p member => Nat.lt_of_lt_of_le (rep.windowKnown p member) fresh
  backupKnown := fun p member => Nat.lt_of_lt_of_le (rep.backupKnown p member) fresh
  poolKnown := fun p member => Nat.lt_of_lt_of_le (rep.poolKnown p member) fresh

theorem write (loose : Loose heap p w b pool)
    (ip : Instruction) : Rep (heap.set p ip) window backup w b pool := by
  refine rep.keep (fun q held => ?_) rfl (Nat.le_refl _)
  have apart : q ≠ p := by
    rintro rfl
    rcases held with inWindow | inBackup | inPool
    · exact loose.window inWindow
    · exact loose.backup inBackup
    · exact loose.pool inPool
  simp [Heap.next, Heap.set, Function.update_of_ne apart]

/-- An instruction goes back to the pool. -/
theorem release (loose : Loose heap p w b pool) :
    Rep (oldinstr heap p) window backup w b (p :: pool) := by
  have next : (oldinstr heap p).next = Function.update heap.next p heap.pool := Heap.setFw_next heap.pool
  exact {
    window := ⟨rep.window.qlen, rep.window.head, rep.window.tail, by
      rw [next]
      exact follows_update loose.window rep.window.linked⟩
    backup := ⟨rep.backup.qlen, rep.backup.head, rep.backup.tail, by
      rw [next]
      exact follows_update loose.backup rep.backup.linked⟩
    free := rfl
    linked := by
      rw [next]
      exact ⟨by simp [rep.free], follows_update loose.pool rep.linked⟩
    windowBackup := rep.windowBackup
    windowPool := by
      intro q member
      rw [mem_cons, not_or]
      exact ⟨fun same => loose.window (same ▸ member), rep.windowPool q member⟩
    backupPool := by
      intro q member
      rw [mem_cons, not_or]
      exact ⟨fun same => loose.backup (same ▸ member), rep.backupPool q member⟩
    windowKnown := rep.windowKnown
    backupKnown := rep.backupKnown
    poolKnown := by
      intro q member
      rcases mem_cons.mp member with same | old
      · exact same ▸ loose.known
      · exact rep.poolKnown q old }

end

theorem release_text : (oldinstr heap p).text = heap.text := Heap.setFw_text heap.pool

theorem shrink (rep : Rep heap window backup w b (p :: pool)) :
    Rep { heap with pool := heap.next p } window backup w b pool ∧ Loose heap p w b pool := by
  have distinct := List.nodup_cons.mp (follows_nodup rep.linked)
  have next : heap.next p = pool.head? := by
    rw [rep.linked.1]
    exact Option.or_none
  constructor
  · exact {
      window := ⟨rep.window.qlen, rep.window.head, rep.window.tail, rep.window.linked⟩
      backup := ⟨rep.backup.qlen, rep.backup.head, rep.backup.tail, rep.backup.linked⟩
      free := next
      linked := rep.linked.2
      windowBackup := rep.windowBackup
      windowPool := fun q member inPool => rep.windowPool q member (mem_cons_of_mem p inPool)
      backupPool := fun q member inPool => rep.backupPool q member (mem_cons_of_mem p inPool)
      windowKnown := rep.windowKnown
      backupKnown := rep.backupKnown
      poolKnown := fun q member => rep.poolKnown q (mem_cons_of_mem p member) }
  · exact {
      window := fun inWindow => rep.windowPool p inWindow mem_cons_self
      backup := fun inBackup => rep.backupPool p inBackup mem_cons_self
      pool := distinct.1
      known := rep.poolKnown p mem_cons_self }

/-- A new instruction is loose, and those that are held keep their lines. -/
theorem take (rep : Rep heap window backup w b pool) (maxOp : Nat) (stale : Nat → Stale) :
    ∃ heap' p pool', newinstr maxOp stale heap = (heap', p) ∧
      Rep heap' window backup w b pool' ∧ Loose heap' p w b pool' ∧
      (heap'.node p).state = .onlyOpc ∧ (∀ q, q ≠ p → heap'.text q = heap.text q) := by
  have text (clean : Instruction) (p q : Ptr) (apart : q ≠ p) :
      (heap.set p clean).text q = heap.text q := by
    simp [Heap.text, Heap.set, Function.update_of_ne apart]
  cases pool with
  | nil =>
    have free : heap.pool = none := rep.free
    let made := (newinstr maxOp stale heap).1
    have ran : newinstr maxOp stale heap = (made, heap.fresh) := by
      simp only [made, newinstr, free]
    have fields : made.pool = heap.pool ∧ made.fresh = heap.fresh + 1 := by
      simp only [made, newinstr, free, Heap.set, and_self]
    have state : (made.node heap.fresh).state = .onlyOpc := by
      simp only [made, newinstr, free, Heap.set, Function.update_self]
    have new (q : Ptr) (held : q ∈ w ∨ q ∈ b ∨ q ∈ []) : q ≠ heap.fresh := by
      rintro rfl
      rcases held with inWindow | inBackup | none
      · exact Nat.lt_irrefl _ (rep.windowKnown _ inWindow)
      · exact Nat.lt_irrefl _ (rep.backupKnown _ inBackup)
      · cases none
    have kept : Rep made window backup w b [] := by
      have grown : heap.fresh ≤ made.fresh := by
        rw [fields.2]
        exact Nat.le_succ _
      refine rep.keep (fun q held => ?_) fields.1 grown
      simp only [made, newinstr, free, Heap.next, Heap.set, Function.update_of_ne (new q held)]
    refine ⟨made, heap.fresh, [], ran, kept, ⟨?_, ?_, not_mem_nil, ?_⟩, state, ?_⟩
    · exact fun inWindow => new _ (.inl inWindow) rfl
    · exact fun inBackup => new _ (.inr (.inl inBackup)) rfl
    · rw [fields.2]
      exact Nat.lt_succ_self _
    · intro q apart
      simp only [made, newinstr, free]
      exact text _ _ q apart
  | cons first rest =>
    have free : heap.pool = some first := rep.free
    obtain ⟨shrunk, loose⟩ := rep.shrink
    let made := (newinstr maxOp stale heap).1
    have ran : newinstr maxOp stale heap = (made, first) := by
      simp only [made, newinstr, free]
    have fields : made.pool = heap.next first ∧ made.fresh = heap.fresh := by
      simp only [made, newinstr, free, Heap.set, and_self]
    have state : (made.node first).state = .onlyOpc := by
      simp only [made, newinstr, free, Heap.set, Function.update_self]
    have kept : Rep made window backup w b rest := by
      refine shrunk.keep (fun q held => ?_) fields.1 (Nat.le_of_eq fields.2.symm)
      have apart : q ≠ first := by
        rintro rfl
        rcases held with inWindow | inBackup | inPool
        · exact loose.window inWindow
        · exact loose.backup inBackup
        · exact loose.pool inPool
      simp only [made, newinstr, free, Heap.next, Heap.set, Function.update_of_ne apart]
    refine ⟨made, first, rest, ran, kept, ⟨loose.window, loose.backup, loose.pool, ?_⟩, state, ?_⟩
    · rw [fields.2]
      exact loose.known
    · intro q apart
      simp only [made, newinstr, free]
      exact text _ _ q apart

end Rep

end AckFormal.Top
