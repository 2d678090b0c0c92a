import AckFormal.Top.Table
import AckFormal.Lib.Links

/-!
# Queues of instructions

`queue.c` and the pool of instructions of `top.c`, over a memory of instructions. Reading or
writing through a null pointer is undefined.
-/

namespace AckFormal.Top

open Lib.Links
open Function (update update_of_ne)

/-- The instructions, the pool of free ones, the first pointer that `malloc` has not given
out, and how many instructions were made. -/
structure Heap where
  node : Ptr → Instruction
  pool : Option Ptr
  fresh : Ptr
  made : Nat

structure Queue where
  head : Option Ptr
  tail : Option Ptr
  qlen : Nat

namespace Heap

variable (heap : Heap)

def set (p : Ptr) (ip : Instruction) : Heap := { heap with node := update heap.node p ip }

def setFw (p : Ptr) (fw : Option Ptr) : Heap := heap.set p { heap.node p with fw := fw }

def setBw (p : Ptr) (bw : Option Ptr) : Heap := heap.set p { heap.node p with bw := bw }

def next (p : Ptr) : Option Ptr := (heap.node p).fw

def text (p : Ptr) : List Char := (heap.node p).line

end Heap

def emptyQueue : Queue := ⟨none, none, 0⟩

def empty (q : Queue) : Bool := q.qlen == 0

def removeHead (heap : Heap) (q : Queue) : Option (Heap × Queue) := do
  let head ← q.head
  match heap.next head with
  | none => some (heap, ⟨none, none, q.qlen - 1⟩)
  | some next => some (heap.setBw next none, ⟨some next, q.tail, q.qlen - 1⟩)

def add (heap : Heap) (q : Queue) (instr : Ptr) : Option (Heap × Queue) :=
  if q.qlen = 0 then
    some ((heap.setBw instr none).setFw instr none, ⟨some instr, some instr, 1⟩)
  else do
    let tail ← q.tail
    let heap := heap.setFw tail (some instr)
    let heap := heap.setBw instr (some tail)
    some (heap.setFw instr none, ⟨q.head, some instr, q.qlen + 1⟩)

def insert (heap : Heap) (q : Queue) (instr : Ptr) : Option (Heap × Queue) :=
  if q.qlen = 0 then
    some ((heap.setFw instr none).setBw instr none, ⟨some instr, some instr, 1⟩)
  else do
    let head ← q.head
    let heap := heap.setBw head (some instr)
    let heap := heap.setFw instr (some head)
    some (heap.setBw instr none, ⟨some instr, q.tail, q.qlen + 1⟩)

/-- The length of the second queue is tested after the length of the first was added to
it. -/
def joinQueues (heap : Heap) (q1 q2 : Queue) : Option (Heap × Queue × Queue) :=
  if 0 < q1.qlen then do
    let q2 := { q2 with qlen := q2.qlen + q1.qlen }
    let tail ← q1.tail
    let heap := heap.setFw tail q2.head
    if 0 < q2.qlen then
      let head ← q2.head
      some (heap.setBw head q1.tail, emptyQueue, { q2 with head := q1.head })
    else some (heap, emptyQueue, { q2 with tail := q1.tail, head := q1.head })
  else some (heap, q1, q2)

def newinstr (maxOp : Nat) (stale : Nat → Stale) (heap : Heap) : Heap × Ptr :=
  let clean : Instruction :=
    { fw := none, bw := none, line := [], restLine := none, opc := [],
      op := List.replicate maxOp [], state := .onlyOpc, stale := stale heap.made }
  match heap.pool with
  | none =>
    ({ heap.set heap.fresh clean with fresh := heap.fresh + 1, made := heap.made + 1 }, heap.fresh)
  | some ip => ({ heap.set ip clean with pool := heap.next ip, made := heap.made + 1 }, ip)

def oldinstr (heap : Heap) (ip : Ptr) : Heap :=
  { heap.setFw ip heap.pool with pool := some ip }

namespace Heap

variable {heap : Heap} {p q : Ptr}

theorem setBw_next (bw : Option Ptr) : (heap.setBw p bw).next = heap.next := by
  funext other
  by_cases same : other = p
  · subst same
    simp [setBw, set, next]
  · simp [setBw, set, next, update_of_ne same]

theorem setBw_text (bw : Option Ptr) : (heap.setBw p bw).text = heap.text := by
  funext other
  by_cases same : other = p
  · subst same
    simp [setBw, set, text]
  · simp [setBw, set, text, update_of_ne same]

theorem setFw_next (fw : Option Ptr) : (heap.setFw p fw).next = update heap.next p fw := by
  funext other
  by_cases same : other = p
  · subst same
    simp [setFw, set, next]
  · simp [setFw, set, next, update_of_ne same]

theorem setFw_text (fw : Option Ptr) : (heap.setFw p fw).text = heap.text := by
  funext other
  by_cases same : other = p
  · subst same
    simp [setFw, set, text]
  · simp [setFw, set, text, update_of_ne same]

structure Relinked (heap heap' : Heap) (changed : List Ptr) : Prop where
  next : ∀ p, p ∉ changed → heap'.next p = heap.next p
  text : heap'.text = heap.text
  pool : heap'.pool = heap.pool
  fresh : heap'.fresh = heap.fresh

theorem Relinked.refl (heap : Heap) (changed : List Ptr) : Relinked heap heap changed :=
  ⟨fun _ _ => rfl, rfl, rfl, rfl⟩

theorem Relinked.trans {heap heap' heap'' : Heap} {changed changed' : List Ptr}
    (first : Relinked heap heap' changed) (second : Relinked heap' heap'' changed') :
    Relinked heap heap'' (changed ++ changed') where
  next := by
    intro p apart
    rw [List.mem_append, not_or] at apart
    exact (second.next p apart.2).trans (first.next p apart.1)
  text := second.text.trans first.text
  pool := second.pool.trans first.pool
  fresh := second.fresh.trans first.fresh

theorem Relinked.mono {heap heap' : Heap} {changed changed' : List Ptr}
    (linked : Relinked heap heap' changed) (within : ∀ p ∈ changed, p ∈ changed') :
    Relinked heap heap' changed' :=
  ⟨fun p apart => linked.next p (fun member => apart (within p member)), linked.text, linked.pool,
    linked.fresh⟩

theorem setBw_relinked (heap : Heap) (p : Ptr) (bw : Option Ptr) : Relinked heap (heap.setBw p bw) [] :=
  ⟨fun _ _ => by rw [setBw_next], setBw_text bw, rfl, rfl⟩

theorem setFw_relinked (heap : Heap) (p : Ptr) (fw : Option Ptr)
    : Relinked heap (heap.setFw p fw) [p] where
  next := by
    intro other apart
    rw [setFw_next]
    exact update_of_ne (fun same => apart (List.mem_singleton.mpr same)) _ _
  text := setFw_text fw
  pool := rfl
  fresh := rfl

end Heap

/-- The queue holds the instructions of the list, in its order. -/
structure Holds (heap : Heap) (q : Queue) (cells : List Ptr) : Prop where
  qlen : q.qlen = cells.length
  head : q.head = cells.head?
  tail : q.tail = cells.getLast?
  linked : Follows heap.next cells none

namespace Holds

variable {heap heap' : Heap} {q q1 q2 : Queue} {cells changed : List Ptr} {instr : Ptr}

theorem frame (holds : Holds heap q cells) (relinked : Heap.Relinked heap heap' changed)
    (apart : ∀ p ∈ cells, p ∉ changed) : Holds heap' q cells where
  qlen := holds.qlen
  head := holds.head
  tail := holds.tail
  linked := follows_congr (fun p member => relinked.next p (apart p member)) holds.linked

theorem nil (heap : Heap) : Holds heap emptyQueue [] := ⟨rfl, rfl, rfl, trivial⟩

theorem walk_eq (holds : Holds heap q cells) : walk heap.next q.qlen q.head = cells := by
  rw [holds.qlen, holds.head]
  exact Lib.Links.walk_eq holds.linked

theorem eq_nil_iff (holds : Holds heap q cells) : q.qlen = 0 ↔ cells = [] := by
  rw [holds.qlen]
  exact List.length_eq_zero_iff

theorem removeHead (holds : Holds heap q (instr :: cells)) :
    ∃ heap' q', removeHead heap q = some (heap', q') ∧ Holds heap' q' cells ∧
      Heap.Relinked heap heap' [] := by
  have head : q.head = some instr := holds.head
  have len : q.qlen - 1 = cells.length := by
    rw [holds.qlen]
    rfl
  have next : heap.next instr = cells.head? := by
    rw [holds.linked.1]
    exact Option.or_none
  cases cells with
  | nil =>
    refine ⟨heap, ⟨none, none, q.qlen - 1⟩, ?_, ⟨len, rfl, rfl, trivial⟩, .refl heap []⟩
    simp [Top.removeHead, head, next]
  | cons other rest =>
    have relinked : Heap.Relinked heap (heap.setBw other none) [] :=
      Heap.setBw_relinked heap other none
    refine ⟨heap.setBw other none, ⟨some other, q.tail, q.qlen - 1⟩, ?_, ?_, relinked⟩
    · simp [Top.removeHead, head, next]
    · have linked : Follows (heap.setBw other none).next (other :: rest) none :=
        follows_congr (fun p _ => relinked.next p List.not_mem_nil) holds.linked.2
      exact ⟨len, rfl, holds.tail.trans (List.getLast?_cons_cons ..), linked⟩

/-- `add` links the instruction behind the last one. -/
theorem add (holds : Holds heap q cells) (apart : instr ∉ cells) :
    ∃ heap' q', add heap q instr = some (heap', q') ∧ Holds heap' q' (cells ++ [instr]) ∧
      Heap.Relinked heap heap' (cells ++ [instr]) := by
  rcases List.eq_nil_or_concat cells with rfl | ⟨front, last, rfl⟩
  · have zero : q.qlen = 0 := holds.qlen
    refine ⟨(heap.setBw instr none).setFw instr none, ⟨some instr, some instr, 1⟩, ?_, ?_, ?_⟩
    · rw [Top.add, if_pos zero]
    · exact ⟨rfl, rfl, rfl, by simp [Follows, Heap.setFw_next]⟩
    · exact (Heap.setBw_relinked heap instr none).trans (Heap.setFw_relinked _ instr none)
  · rw [List.concat_eq_append] at holds apart ⊢
    have filled : q.qlen ≠ 0 := by
      rw [holds.qlen]
      simp
    have tail : q.tail = some last := by
      rw [holds.tail]
      simp
    obtain ⟨notFront, notLast⟩ : instr ∉ front ∧ instr ≠ last := by simpa using apart
    have lastFront : last ∉ front := by
      have distinct := follows_nodup holds.linked
      rw [List.nodup_append] at distinct
      exact fun member => distinct.2.2 last member last List.mem_cons_self rfl
    have redirected : Follows (update heap.next last (some instr)) (front ++ [last])
        (some instr) := follows_redirect lastFront holds.linked
    let heap' := ((heap.setFw last (some instr)).setBw instr (some last)).setFw instr none
    have next : heap'.next = update (update heap.next last (some instr)) instr none := by
      simp only [heap', Heap.setFw_next, Heap.setBw_next]
    refine ⟨heap', ⟨q.head, some instr, q.qlen + 1⟩, ?_, ⟨?_, ?_, ?_, ?_⟩, ?_⟩
    · rw [Top.add, if_neg filled, tail]
      rfl
    · simp [holds.qlen]
    · rw [holds.head]
      simp
    · simp
    · rw [next]
      refine follows_append.mpr ⟨?_, by simp [Follows]⟩
      exact follows_update (by simpa using ⟨notFront, notLast⟩) redirected
    · have linked := ((Heap.setFw_relinked heap last (some instr)).trans
        (Heap.setBw_relinked _ instr (some last))).trans (Heap.setFw_relinked _ instr none)
      exact linked.mono (by simp)

theorem insert (holds : Holds heap q cells) (apart : instr ∉ cells) :
    ∃ heap' q', insert heap q instr = some (heap', q') ∧ Holds heap' q' (instr :: cells) ∧
      Heap.Relinked heap heap' [instr] := by
  cases cells with
  | nil =>
    have zero : q.qlen = 0 := holds.qlen
    refine ⟨(heap.setFw instr none).setBw instr none, ⟨some instr, some instr, 1⟩, ?_, ?_, ?_⟩
    · rw [Top.insert, if_pos zero]
    · exact ⟨rfl, rfl, rfl, by simp [Follows, Heap.setBw_next, Heap.setFw_next]⟩
    · exact (Heap.setFw_relinked heap instr none).trans (Heap.setBw_relinked _ instr none)
  | cons first rest =>
    have filled : q.qlen ≠ 0 := by
      rw [holds.qlen]
      exact Nat.succ_ne_zero _
    have head : q.head = some first := holds.head
    let heap' := ((heap.setBw first (some instr)).setFw instr (some first)).setBw instr none
    have next : heap'.next = update heap.next instr (some first) := by
      simp only [heap', Heap.setFw_next, Heap.setBw_next]
    refine ⟨heap', ⟨some instr, q.tail, q.qlen + 1⟩, ?_, ⟨?_, rfl, ?_, ?_⟩, ?_⟩
    · rw [Top.insert, if_neg filled, head]
      rfl
    · rw [holds.qlen]
      rfl
    · exact holds.tail.trans (List.getLast?_cons_cons ..).symm
    · rw [next]
      exact ⟨by simp, follows_update apart holds.linked⟩
    · have linked := ((Heap.setBw_relinked heap first (some instr)).trans
        (Heap.setFw_relinked _ instr (some first))).trans (Heap.setBw_relinked _ instr none)
      exact linked.mono (by simp)

/-- Queues are joined in order as long as the second is not empty, or both are. -/
theorem joinQueues {cells1 cells2 : List Ptr} (first : Holds heap q1 cells1)
    (second : Holds heap q2 cells2) (apart : ∀ p ∈ cells1, p ∉ cells2)
    (filled : cells2 = [] → cells1 = []) :
    ∃ heap' q1' q2', joinQueues heap q1 q2 = some (heap', q1', q2') ∧ Holds heap' q1' [] ∧
      Holds heap' q2' (cells1 ++ cells2) ∧ Heap.Relinked heap heap' cells1 := by
  rcases List.eq_nil_or_concat cells1 with rfl | ⟨front, last, rfl⟩
  · have zero : q1.qlen = 0 := first.qlen
    refine ⟨heap, q1, q2, ?_, first, second, .refl heap []⟩
    rw [Top.joinQueues, if_neg (by omega)]
  · rw [List.concat_eq_append] at *
    have positive : 0 < q1.qlen := by
      rw [first.qlen]
      simp
    have tail : q1.tail = some last := by
      rw [first.tail]
      simp
    cases cells2 with
    | nil => simp at filled
    | cons head rest =>
      have start : q2.head = some head := second.head
      have lastFront : last ∉ front := by
        have distinct := follows_nodup first.linked
        rw [List.nodup_append] at distinct
        exact fun member => distinct.2.2 last member last List.mem_cons_self rfl
      have lastSecond : last ∉ head :: rest := apart last (by simp)
      let heap' := (heap.setFw last (some head)).setBw head (some last)
      have next : heap'.next = update heap.next last (some head) := by
        simp only [heap', Heap.setFw_next, Heap.setBw_next]
      refine ⟨heap', emptyQueue, ⟨q1.head, q2.tail, q2.qlen + q1.qlen⟩, ?_, .nil heap',
        ⟨?_, ?_, ?_, ?_⟩, ?_⟩
      · have more : 0 < q2.qlen + q1.qlen := Nat.add_pos_right _ positive
        simp [Top.joinQueues, positive, tail, start, more, heap']
      · simp only [first.qlen, second.qlen, List.length_append]
        exact Nat.add_comm _ _
      · rw [first.head]
        simp
      · rw [second.tail]
        exact (List.getLast?_append_cons _ head rest).symm
      · rw [next]
        exact follows_append.mpr ⟨follows_redirect lastFront first.linked,
          follows_update lastSecond second.linked⟩
      · have linked := (Heap.setFw_relinked heap last (some head)).trans
          (Heap.setBw_relinked _ head (some last))
        exact linked.mono (by simp)

/-- When only the second queue is empty, joining writes through a null pointer. -/
theorem joinQueues_none {cells1 : List Ptr} (first : Holds heap q1 cells1)
    (second : Holds heap q2 []) (filled : cells1 ≠ []) : Top.joinQueues heap q1 q2 = none := by
  have positive : 0 < q1.qlen := by
    rw [first.qlen]
    exact List.length_pos_of_ne_nil filled
  have head : q2.head = none := second.head
  have more : 0 < q2.qlen + q1.qlen := Nat.add_pos_right _ positive
  cases tail : q1.tail <;> simp [Top.joinQueues, positive, head, more]

end Holds

end AckFormal.Top
