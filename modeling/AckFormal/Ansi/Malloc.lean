import AckFormal.Lib.Rings
import Mathlib.Algebra.Ring.Nat

/-!
# The storage allocator

`malloc`, `free` and `realloc`. Memory is counted in units of a `block_t`, and an address is the number
of a unit; a unit is a header, with its two words, or holds two words of a program.
-/

namespace AckFormal.Ansi.Malloc

open Lib.Rings
open Function (update)

/-- The width of a pointer and of `size_t`, and the place of `__mem_root`. -/
structure Machine where
  bits : Nat
  root : Nat
  width : bits = 16 ∨ bits = 32 ∨ bits = 64
  root_pos : 0 < root

namespace Machine

variable (m : Machine)

def blockSize : Nat := 2 * (m.bits / 8)

def space : Nat := 2 ^ m.bits / m.blockSize

def BRKSIZE : Nat := 512 / m.blockSize

def blockcount (bytes : Nat) : Nat := (bytes + m.blockSize + m.blockSize - 1) % 2 ^ m.bits

def advance (p n : Nat) : Nat := (p + n) % m.space

end Machine

/-- The memory, `__mem_freelist`, and the regions that `sbrk` has given: their first units and how many
units each has. -/
structure Heap where
  next : Nat → Nat
  size : Nat → Nat
  freelist : Nat
  granted : List (Nat × Nat)

/-- What `sbrk` answers, after the regions it has given, to a request for a number of bytes. -/
abbrev Sbrk := List (Nat × Nat) → Nat → Option Nat

variable (m : Machine)

/-- The heap before the first call; nothing is known of the memory besides `__mem_root`. -/
def Heap.Initial (heap : Heap) : Prop :=
  heap.next m.root = m.root ∧ heap.size m.root = 0 ∧ heap.freelist = m.root ∧ heap.granted = []

def Behind (heap : Heap) (h p : Nat) : Prop :=
  (p < h ∧ h < heap.next p) ∨ (heap.next p ≤ p ∧ (p < h ∨ h < heap.next p))

instance (heap : Heap) (h p : Nat) : Decidable (Behind heap h p) :=
  inferInstanceAs (Decidable (_ ∨ _))

/-- `free` merges the next block onto the end of `h`, or makes `h` lead to it. -/
def mergeNext (heap : Heap) (h p : Nat) : Heap :=
  let following := heap.next p
  if m.advance h (heap.size h) = following then
    { heap with
      size := update heap.size h ((heap.size h + heap.size following) % 2 ^ m.bits)
      next := update heap.next h (heap.next following) }
  else { heap with next := update heap.next h following }

/-- `free` merges `h` onto the end of `p`, or makes `p` lead to it. -/
def mergePrevious (heap : Heap) (h p : Nat) : Heap :=
  if m.advance p (heap.size p) = h then
    { heap with
      size := update heap.size p ((heap.size p + heap.size h) % 2 ^ m.bits)
      next := update heap.next p (heap.next h) }
  else { heap with next := update heap.next p h }

def insert (heap : Heap) (h p : Nat) : Heap :=
  { mergePrevious m (mergeNext m heap h p) h p with freelist := p }

def free (fuel ptr : Nat) (heap : Heap) : Option Heap :=
  let h := ptr - 1
  if ptr = 0 then some heap
  else (seek heap.next (Behind heap h) fuel heap.freelist).map (insert m heap h)

/-- `brkmore`: the new `__mem_freelist`, or none for `NULL`. -/
def brkmore (sbrk : Sbrk) (fuel nb : Nat) (heap : Heap) : Option (Option Nat × Heap) :=
  let nb := if nb < m.BRKSIZE then m.BRKSIZE else nb
  let bytes := nb * m.blockSize % 2 ^ m.bits
  if bytes > 2 ^ (m.bits - 1) - 1 then some (none, heap)
  else
    match sbrk heap.granted bytes with
    | none => some (none, heap)
    | some p =>
      let heap :=
        { heap with size := update heap.size p nb, granted := (p, nb) :: heap.granted }
      (free m fuel (m.advance p 1) heap).map fun heap => (some heap.freelist, heap)

/-- The loop of `malloc`: the pointer, 0 for `NULL`, and the heap. -/
def mallocLoop (sbrk : Sbrk) (nblocks : Nat) : Nat → Heap → Nat → Nat → Option (Nat × Heap)
  | 0, _, _, _ => none
  | fuel + 1, heap, prev, p =>
    if heap.size p = nblocks then
      some (m.advance p 1,
        { heap with next := update heap.next prev (heap.next p), freelist := prev })
    else if heap.size p > nblocks then
      let rest := heap.size p - nblocks
      let q := m.advance p rest
      some (m.advance q 1,
        { heap with
          size := update (update heap.size p rest) q nblocks
          freelist := prev })
    else if p = heap.freelist then
      match brkmore m sbrk fuel nblocks heap with
      | none => none
      | some (none, heap) => some (0, heap)
      | some (some p, heap) => mallocLoop sbrk nblocks fuel heap p (heap.next p)
    else mallocLoop sbrk nblocks fuel heap p (heap.next p)

def malloc (sbrk : Sbrk) (fuel size : Nat) (heap : Heap) : Option (Nat × Heap) :=
  let nblocks := m.blockcount size
  if nblocks < size then some (0, heap)
  else mallocLoop m sbrk (nblocks / m.blockSize) fuel heap heap.freelist (heap.next heap.freelist)

end AckFormal.Ansi.Malloc
