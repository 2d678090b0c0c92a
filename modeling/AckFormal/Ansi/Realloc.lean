import AckFormal.Ansi.HeapRuns

/-!
# Reallocation

`realloc` compares a number of bytes with a number of blocks, and copies the block with one unit too
many. It keeps what it promises where it does not copy.
-/

namespace AckFormal.Ansi.Malloc

def memcpy (m : Machine) : Nat → Nat → Nat → Heap → Heap
  | _, _, 0, heap => heap
  | dst, src, count + 1, heap =>
    memcpy m (m.advance dst 1) (m.advance src 1) count
      { heap with
        next := Function.update heap.next dst (heap.next src)
        size := Function.update heap.size dst (heap.size src) }

/-- What a call of `realloc` leaves: the pointer, the heap, and the units that it copied from and to. -/
structure Outcome where
  ptr : Nat
  heap : Heap
  reads : List Nat
  writes : List Nat

def realloc (m : Machine) (sbrk : Sbrk) (fuel ptr size : Nat) (heap : Heap) : Option Outcome :=
  if size = 0 then (free m fuel ptr heap).map fun heap => ⟨0, heap, [], []⟩
  else if ptr = 0 then (malloc m sbrk fuel size heap).map fun out => ⟨out.1, out.2, [], []⟩
  else
    let h := ptr - 1
    let nblocks := m.blockcount size
    if nblocks < size then some ⟨0, heap, [], []⟩
    else if nblocks ≤ heap.size h then some ⟨ptr, heap, [], []⟩
    else
      (malloc m sbrk fuel size heap).bind fun out =>
        if out.1 = 0 then some ⟨0, out.2, [], []⟩
        else
          let count := out.2.size h
          (free m fuel ptr (memcpy m out.1 ptr count out.2)).map fun heap =>
            ⟨out.1, heap, (List.range count).map (m.advance ptr),
              (List.range count).map (m.advance out.1)⟩

/-- A byte of a unit, the least significant one of a word first. -/
def Heap.byte (m : Machine) (heap : Heap) (unit offset : Nat) : Nat :=
  if offset < m.bits / 8 then heap.next unit / 256 ^ offset % 256
  else heap.size unit / 256 ^ (offset - m.bits / 8) % 256

structure Preserves (m : Machine) (heap : Heap) (live : List Block) (b : Block) (size : Nat)
    (out : Outcome) : Prop where
  reads : ∀ unit ∈ out.reads, b.addr < unit ∧ unit < b.addr + b.count
  writes : ∀ unit ∈ out.writes, out.ptr ≤ unit ∧
    unit < out.ptr - 1 + out.heap.size (out.ptr - 1)
  failure : out.ptr = 0 → out.heap = heap
  room : out.ptr ≠ 0 → size + m.blockSize ≤ out.heap.size (out.ptr - 1) * m.blockSize
  contents : out.ptr ≠ 0 → ∀ i, i < size → i < (b.count - 1) * m.blockSize →
    out.heap.byte m (out.ptr + i / m.blockSize) (i % m.blockSize) =
      heap.byte m (b.ptr + i / m.blockSize) (i % m.blockSize)
  others : ∀ c ∈ live, c ≠ b → ∀ unit, c.Holds unit →
    out.heap.next unit = heap.next unit ∧ out.heap.size unit = heap.size unit

/-- The call does not move the block: the bytes with two headers are no more than the blocks, or there
is no block to be had. -/
def Unmoved (m : Machine) (sbrk : Sbrk) (heap : Heap) (b : Block) (size : Nat) : Prop :=
  m.blockcount size ≤ b.count ∨ Failing m sbrk heap size

variable {m : Machine} {heap : Heap} {live : List Block} {ring : List Nat}

variable {sbrk : Sbrk} {fuel size : Nat} {b : Block} {out : Outcome}

theorem realloc_eq (positive : 0 < size) (fits : ¬ m.blockcount size < size)
    (large : ¬ m.blockcount size ≤ heap.size b.addr) :
    realloc m sbrk fuel b.ptr size heap =
      (malloc m sbrk fuel size heap).bind fun out =>
        if out.1 = 0 then some ⟨0, out.2, [], []⟩
        else
          (free m fuel b.ptr (memcpy m out.1 b.ptr (out.2.size b.addr) out.2)).map fun heap =>
            ⟨out.1, heap, (List.range (out.2.size b.addr)).map (m.advance b.ptr),
              (List.range (out.2.size b.addr)).map (m.advance out.1)⟩ := by
  have some : b.ptr ≠ 0 := Nat.succ_ne_zero _
  have back : b.ptr - 1 = b.addr := Nat.add_sub_cancel _ _
  unfold realloc
  rw [if_neg (Nat.ne_of_gt positive), if_neg some, if_neg fits, back, if_neg large]

section

variable (formed : Formed m heap live ring)
include formed

/-- Where the block stays, or there is no other one, nothing changes. -/
theorem realloc_unmoved (member : b ∈ live) (positive : 0 < size)
    (bound : size < 2 ^ m.bits) (unmoved : Unmoved m sbrk heap b size) :
    ∃ fuel ptr, realloc m sbrk fuel b.ptr size heap = some ⟨ptr, heap, [], []⟩ ∧
      (ptr = 0 ∨ (ptr = b.ptr ∧ size + m.blockSize ≤ b.count * m.blockSize)) := by
  have header : heap.size b.addr = b.count := formed.laid.headers b member
  have some : b.ptr ≠ 0 := Nat.succ_ne_zero _
  have back : b.ptr - 1 = b.addr := Nat.add_sub_cancel _ _
  by_cases overflow : m.blockcount size < size
  · refine ⟨0, 0, ?_, Or.inl rfl⟩
    unfold realloc
    rw [if_neg (Nat.ne_of_gt positive), if_neg some, if_pos overflow]
  by_cases stays : m.blockcount size ≤ b.count
  · refine ⟨0, b.ptr, ?_, Or.inr ⟨rfl, ?_⟩⟩
    · unfold realloc
      rw [if_neg (Nat.ne_of_gt positive), if_neg some, if_neg overflow, back, header, if_pos stays]
    · have unit := m.blockSize_pos
      have bytes : b.count ≤ b.count * m.blockSize := Nat.le_mul_of_pos_right _ unit
      rw [Machine.blockcount_eq bound overflow] at stays
      omega
  · obtain ⟨fuel, none⟩ := malloc_failing formed.toShape (unmoved.resolve_left stays)
    refine ⟨fuel, 0, ?_, Or.inl rfl⟩
    rw [realloc_eq positive overflow (by rwa [header]), none]
    rfl

theorem unmoved_preserves (member : b ∈ live) {ptr : Nat}
    (kept : ptr = 0 ∨ (ptr = b.ptr ∧ size + m.blockSize ≤ b.count * m.blockSize)) :
    Preserves m heap live b size ⟨ptr, heap, [], []⟩ where
  reads := by simp
  writes := by simp
  failure := fun _ => rfl
  room := fun some => by
    obtain ⟨rfl, room⟩ := kept.resolve_left some
    have back : b.ptr - 1 = b.addr := Nat.add_sub_cancel _ _
    rw [back, formed.laid.headers b member]
    exact room
  contents := fun some i _ _ => by
    obtain ⟨rfl, -⟩ := kept.resolve_left some
    rfl
  others := fun _ _ _ _ _ => ⟨rfl, rfl⟩

/-- Where it copies, it reads the unit behind the block. -/
theorem moved_spoils (allowed : Allowed m sbrk)
    (member : b ∈ live) (positive : 0 < size) (bound : size < 2 ^ m.bits)
    (moved : ¬ Unmoved m sbrk heap b size) (done : realloc m sbrk fuel b.ptr size heap = some out) :
    ¬ Preserves m heap live b size out := by
  obtain ⟨large, works⟩ := not_or.mp moved
  have header : heap.size b.addr = b.count := formed.laid.headers b member
  have fits : ¬ m.blockcount size < size := fun overflow => works (Or.inl overflow)
  rw [realloc_eq positive fits (by rwa [header])] at done
  obtain ⟨⟨ptr, heap'⟩, got, rest⟩ := Option.bind_eq_some_iff.mp done
  obtain ⟨fuel', c, heap'', ring', result, -, -, shape⟩ :=
    malloc_shape allowed formed.toShape bound works
  have first := malloc_mono (Nat.le_max_left fuel fuel') got
  have second := malloc_mono (Nat.le_max_right fuel fuel') result
  obtain ⟨rfl, rfl⟩ : ptr = c.ptr ∧ heap' = heap'' := by
    simpa using first.symm.trans second
  have inside : b ∈ c :: live := List.mem_cons_of_mem c member
  have kept : heap'.size b.addr = b.count := shape.laid.headers b inside
  have bounds := (shape.laid.block_bounds inside).2
  have full := shape.laid.positive b inside
  dsimp only at rest
  obtain ⟨last, -, rfl⟩ := Option.map_eq_some_iff.mp rest
  intro preserves
  have end_eq : m.advance b.ptr (b.count - 1) = b.addr + b.count := by
    have sum : b.ptr + (b.count - 1) = b.addr + b.count := by
      unfold Block.ptr
      omega
    rw [Machine.advance_of_lt (by omega), sum]
  have past := preserves.reads (b.addr + b.count)
    (List.mem_map.mpr ⟨b.count - 1, List.mem_range.mpr (by omega), end_eq⟩)
  omega

end

/-! ## Runs with `realloc` -/

/-- The heap after a run in which `realloc` too is called, with blocks that it does not move; without a
block it is `malloc`, and with no size it is `free`. -/
inductive Resized (m : Machine) : Heap → List Block → Prop
  | start {heap : Heap} (initial : heap.Initial m) : Resized m heap []
  | step {heap heap' : Heap} {live live' : List Block} (resized : Resized m heap live)
      (step : Step m heap live heap' live') : Resized m heap' live'
  | realloc {heap : Heap} {live : List Block} {sbrk : Sbrk} {fuel size : Nat} {b : Block}
      {out : Outcome} (resized : Resized m heap live) (member : b ∈ live) (allowed : Allowed m sbrk)
      (positive : 0 < size) (bound : size < 2 ^ m.bits) (unmoved : Unmoved m sbrk heap b size)
      (done : realloc m sbrk fuel b.ptr size heap = some out) :
      Resized m out.heap
        (if out.ptr = 0 then live
          else ⟨out.ptr - 1, out.heap.size (out.ptr - 1), size⟩ :: live.erase b)
  | reallocNull {heap : Heap} {live : List Block} {sbrk : Sbrk} {fuel size : Nat} {out : Outcome}
      (resized : Resized m heap live) (allowed : Allowed m sbrk) (positive : 0 < size)
      (bound : size < 2 ^ m.bits) (done : realloc m sbrk fuel 0 size heap = some out) :
      Resized m out.heap
        (if out.ptr = 0 then live else ⟨out.ptr - 1, out.heap.size (out.ptr - 1), size⟩ :: live)
  | reallocZero {heap : Heap} {live : List Block} {sbrk : Sbrk} {fuel : Nat} {b : Block}
      {out : Outcome} (resized : Resized m heap live) (member : b ∈ live)
      (done : realloc m sbrk fuel b.ptr 0 heap = some out) : Resized m out.heap (live.erase b)

/-- More fuel does not change a result. -/
theorem realloc_mono {more ptr : Nat} (le : fuel ≤ more)
    (done : realloc m sbrk fuel ptr size heap = some out) :
    realloc m sbrk more ptr size heap = some out := by
  unfold realloc at done ⊢
  dsimp only at done ⊢
  split
  next none =>
      rw [if_pos none] at done
      obtain ⟨heap', freed, same⟩ := Option.map_eq_some_iff.mp done
      rw [free_mono le freed, Option.map_some, same]
  next some =>
      rw [if_neg some] at done
      split
      next null =>
          rw [if_pos null] at done
          obtain ⟨got, result, same⟩ := Option.map_eq_some_iff.mp done
          rw [malloc_mono le result, Option.map_some, same]
      next block =>
          rw [if_neg block] at done
          split
          next overflow =>
              rw [if_pos overflow] at done
              exact done
          next fits =>
              rw [if_neg fits] at done
              split
              next stays =>
                  rw [if_pos stays] at done
                  exact done
              next moves =>
                  rw [if_neg moves] at done
                  obtain ⟨got, result, rest⟩ := Option.bind_eq_some_iff.mp done
                  rw [malloc_mono le result, Option.bind_some]
                  split
                  next failed =>
                      rw [if_pos failed] at rest
                      exact rest
                  next works =>
                      rw [if_neg works] at rest
                      obtain ⟨last, freed, same⟩ := Option.map_eq_some_iff.mp rest
                      rw [free_mono le freed, Option.map_some, same]

/-- A call that does not move its block keeps the heap well formed. -/
theorem Formed.resize (formed : Formed m heap live ring) (member : b ∈ live) (positive : 0 < size)
    (bound : size < 2 ^ m.bits) (unmoved : Unmoved m sbrk heap b size)
    (done : realloc m sbrk fuel b.ptr size heap = some out) :
    Formed m out.heap
      (if out.ptr = 0 then live
        else ⟨out.ptr - 1, out.heap.size (out.ptr - 1), size⟩ :: live.erase b) ring := by
  obtain ⟨fuel', ptr, result, kept⟩ := realloc_unmoved formed member positive bound unmoved
  have first := realloc_mono (Nat.le_max_left fuel fuel') done
  have second := realloc_mono (Nat.le_max_right fuel fuel') result
  obtain rfl := Option.some_inj.mp (first.symm.trans second)
  by_cases null : ptr = 0
  · rw [if_pos null]
    exact formed
  · obtain ⟨rfl, room⟩ := kept.resolve_left null
    have back : b.ptr - 1 = b.addr := Nat.add_sub_cancel _ _
    have whole := formed.perm (List.perm_cons_erase member)
    have laid := whole.laid
    rw [if_neg null, back, formed.laid.headers b member]
    refine ⟨⟨⟨laid.root, laid.rootSize, laid.ordered, laid.filled, ?_, ?_, ?_, ?_, laid.regions, ?_⟩,
      whole.linked, whole.entered⟩, ?_⟩
    · exact List.forall_mem_cons.mpr (List.forall_mem_cons.mp laid.headers)
    · exact List.forall_mem_cons.mpr (List.forall_mem_cons.mp laid.positive)
    · have apart := List.pairwise_cons.mp laid.apart
      exact List.pairwise_cons.mpr ⟨apart.1, apart.2⟩
    · exact fun p inside => List.forall_mem_cons.mpr (List.forall_mem_cons.mp (laid.distinct p inside))
    · intro unit
      rw [laid.partition unit, used_cons, used_cons]
      rfl
    · exact List.forall_mem_cons.mpr ⟨room, (List.forall_mem_cons.mp whole.room).2⟩

theorem resized_formed (resized : Resized m heap live) : ∃ ring, Formed m heap live ring := by
  induction resized with
  | start initial => exact ⟨_, Formed.start initial⟩
  | step resized step ih =>
    obtain ⟨ring, formed⟩ := ih
    exact formed.step step
  | realloc resized member allowed positive bound unmoved done ih =>
    obtain ⟨ring, formed⟩ := ih
    exact ⟨ring, formed.resize member positive bound unmoved done⟩
  | @reallocNull heap live sbrk fuel size out resized allowed positive bound done ih =>
    obtain ⟨ring, formed⟩ := ih
    unfold realloc at done
    rw [if_neg (Nat.ne_of_gt positive), if_pos rfl] at done
    obtain ⟨got, result, rfl⟩ := Option.map_eq_some_iff.mp done
    exact formed.step (Step.malloc allowed bound result)
  | @reallocZero heap live sbrk fuel b out resized member done ih =>
    obtain ⟨ring, formed⟩ := ih
    obtain ⟨heap', freed, rfl⟩ := Option.map_eq_some_iff.mp done
    exact formed.step (Step.free member freed)

/-- In a heap that such a run reaches, `realloc` keeps its promise if and only if it does not move the
block. -/
theorem realloc_preserves_iff (resized : Resized m heap live) {sbrk : Sbrk} (allowed : Allowed m sbrk)
    {b : Block} (member : b ∈ live) {size : Nat} (positive : 0 < size) (bound : size < 2 ^ m.bits) :
    (∃ fuel out, realloc m sbrk fuel b.ptr size heap = some out ∧ Preserves m heap live b size out) ↔
      Unmoved m sbrk heap b size := by
  obtain ⟨ring, formed⟩ := resized_formed resized
  constructor
  · rintro ⟨fuel, out, done, preserves⟩
    by_contra moved
    exact moved_spoils formed allowed member positive bound moved done preserves
  · intro unmoved
    obtain ⟨fuel, ptr, result, kept⟩ := realloc_unmoved formed member positive bound unmoved
    exact ⟨fuel, _, result, unmoved_preserves formed member kept⟩

theorem hundred : ∃ heap, Resized small heap [⟨202, 26, 100⟩] ∧
    heap.size (heap.next heap.freelist) = 102 := by
  have result : ((malloc small breaks 9 100 untouched).map fun out =>
      (out.1, out.2.size 202, out.2.size (out.2.next out.2.freelist))) = some (203, 26, 102) := by
    decide +kernel
  obtain ⟨⟨ptr, heap⟩, done, facts⟩ := Option.map_eq_some_iff.mp result
  obtain ⟨rfl, size, free⟩ : ptr = 203 ∧ heap.size 202 = 26 ∧
      heap.size (heap.next heap.freelist) = 102 := by simpa using facts
  have first : Resized small untouched [] := Resized.start ⟨rfl, rfl, rfl, rfl⟩
  have resized := first.step (Step.malloc breaks_allowed (by decide) done)
  have block : (⟨203 - 1, heap.size (203 - 1), 100⟩ : Block) = ⟨202, 26, 100⟩ := by
    rw [show 203 - 1 = 202 from rfl, size]
  rw [if_neg (by decide), block] at resized
  exact ⟨heap, resized, free⟩

/-- Ten bytes are left of it where they are. -/
theorem hundred_shrinks : ∃ heap fuel out, realloc small breaks fuel 203 10 heap = some out ∧
    Preserves small heap [⟨202, 26, 100⟩] ⟨202, 26, 100⟩ 10 out := by
  obtain ⟨heap, resized, -⟩ := hundred
  exact ⟨heap, (realloc_preserves_iff resized breaks_allowed List.mem_cons_self (by decide)
    (by decide)).mpr (Or.inl (by decide))⟩

/-- Sixty bytes are not. -/
theorem hundred_spoils :
    ¬ ∀ (m : Machine) (heap : Heap) (live : List Block) (sbrk : Sbrk) (b : Block) (size : Nat),
      Resized m heap live → Allowed m sbrk → b ∈ live → 0 < size → size < 2 ^ m.bits →
        ∃ fuel out, realloc m sbrk fuel b.ptr size heap = some out ∧
          Preserves m heap live b size out := by
  intro promise
  obtain ⟨heap, resized, free⟩ := hundred
  obtain ⟨ring, formed⟩ := resized_formed resized
  have member : (⟨202, 26, 100⟩ : Block) ∈ [⟨202, 26, 100⟩] := List.mem_cons_self
  obtain ⟨fuel, out, done, preserves⟩ :=
    promise small heap _ breaks _ 60 resized breaks_allowed member (by decide) (by decide)
  have moved : ¬ Unmoved small breaks heap ⟨202, 26, 100⟩ 60 := by
    rintro (stays | overflow | ⟨none, -⟩)
    · exact absurd stays (by decide)
    · exact absurd overflow (by decide)
    · have less := none 1
      change heap.size (heap.next heap.freelist) < 16 at less
      omega
  exact moved_spoils formed breaks_allowed member (by decide) (by decide) moved done preserves

end AckFormal.Ansi.Malloc
