import AckFormal.Ansi.Allocate

/-!
# Runs of the allocator

Every heap that calls of `malloc` and `free` reach is well formed, while the program and `sbrk` do what
they may.
-/

namespace AckFormal.Ansi.Malloc

/-- The heap is well formed: the free blocks are one ring in order of address that starts at
`__mem_root`, no two of them touch, with the allocated blocks they make up what `sbrk` has given, and
every allocated block has room for the bytes that were asked for. -/
structure Formed (m : Machine) (heap : Heap) (live : List Block) (ring : List Nat) : Prop
    extends Shape m heap live ring where
  room : ∀ b ∈ live, b.bytes + m.blockSize ≤ b.count * m.blockSize

/-- What the program may write, besides its own data: the blocks that it has, without their headers. -/
def Writable (m : Machine) (heap : Heap) (live : List Block) (unit : Nat) : Prop :=
  (∃ b ∈ live, b.addr < unit ∧ unit < b.addr + b.count) ∨ (¬ Given heap.granted unit ∧ unit ≠ m.root)

/-- One call of `malloc` or `free`, or writes of the program: the heap and the allocated blocks before
and after. -/
inductive Step (m : Machine) : Heap → List Block → Heap → List Block → Prop
  | malloc {heap heap' : Heap} {live : List Block} {sbrk : Sbrk} {fuel size ptr : Nat}
      (allowed : Allowed m sbrk) (bound : size < 2 ^ m.bits)
      (done : malloc m sbrk fuel size heap = some (ptr, heap')) :
      Step m heap live heap'
        (if ptr = 0 then live else ⟨ptr - 1, heap'.size (ptr - 1), size⟩ :: live)
  | free {heap heap' : Heap} {live : List Block} {fuel : Nat} {b : Block} (member : b ∈ live)
      (done : free m fuel b.ptr heap = some heap') : Step m heap live heap' (live.erase b)
  | freeNull {heap heap' : Heap} {live : List Block} {fuel : Nat}
      (done : free m fuel 0 heap = some heap') : Step m heap live heap' live
  | store {heap : Heap} {live : List Block} {next size : Nat → Nat}
      (kept : ∀ unit, ¬ Writable m heap live unit → next unit = heap.next unit ∧
        size unit = heap.size unit) :
      Step m heap live { heap with next := next, size := size } live

/-- The heap after a run of such steps, with the blocks that are allocated. -/
inductive Reached (m : Machine) : Heap → List Block → Prop
  | start {heap : Heap} (initial : heap.Initial m) : Reached m heap []
  | step {heap heap' : Heap} {live live' : List Block} (reached : Reached m heap live)
      (step : Step m heap live heap' live') : Reached m heap' live'

variable {m : Machine} {heap : Heap} {live : List Block} {ring : List Nat}

theorem Formed.start (initial : heap.Initial m) : Formed m heap [] [m.root] := by
  obtain ⟨next, size, entry, granted⟩ := initial
  refine ⟨⟨⟨rfl, size, List.pairwise_singleton _ _, ?_, ?_, ?_, List.Pairwise.nil, ?_, ?_, ?_⟩, ?_, ?_⟩,
    ?_⟩
  · intro p member other
    exact absurd (List.mem_singleton.mp member) other
  · simp
  · simp
  · simp
  · simp [granted]
  · intro unit
    have none : ¬ Given heap.granted unit := by simp [Given, granted]
    have full : ¬ (m.root ≤ unit ∧ unit < m.root + heap.size m.root) := by
      omega
    have empty : ¬ Used [] unit := by simp [Used]
    have nothing : ¬ Free heap.size [] unit := by simp [Free]
    simp only [none, free_cons, full, nothing, empty, or_self]
  · exact ⟨congrArg some next, trivial⟩
  · rw [entry]
    exact List.mem_cons_self
  · simp

section

variable (formed : Formed m heap live ring)
include formed

theorem Formed.perm {live' : List Block}
    (same : live.Perm live') : Formed m heap live' ring :=
  ⟨formed.toShape.perm same, fun b member => formed.room b (same.mem_iff.mpr member)⟩

theorem Formed.malloc {sbrk : Sbrk} (allowed : Allowed m sbrk)
    {size : Nat} (bound : size < 2 ^ m.bits) :
    ∃ fuel ptr heap' ring', malloc m sbrk fuel size heap = some (ptr, heap') ∧
      Formed m heap' (if ptr = 0 then live else ⟨ptr - 1, heap'.size (ptr - 1), size⟩ :: live)
        ring' := by
  by_cases failing : Failing m sbrk heap size
  · obtain ⟨fuel, result⟩ := malloc_failing formed.toShape failing
    exact ⟨fuel, 0, heap, ring, result, formed⟩
  · obtain ⟨fuel, b, heap', ring', result, count, bytes, shape⟩ :=
      malloc_shape allowed formed.toShape bound failing
    have header : heap'.size b.addr = b.count := shape.laid.headers b List.mem_cons_self
    have same : (⟨b.ptr - 1, heap'.size (b.ptr - 1), size⟩ : Block) = b := by
      have back : b.ptr - 1 = b.addr := Nat.add_sub_cancel _ _
      rw [back, header, ← bytes]
    refine ⟨fuel, b.ptr, heap', ring', result, ?_⟩
    rw [if_neg (show b.ptr ≠ 0 from Nat.succ_ne_zero _), same]
    refine ⟨shape, ?_⟩
    rintro c (_ | ⟨_, member⟩)
    · rw [count, bytes]
      exact Machine.blocks_room bound fun overflow => failing (Or.inl overflow)
    · exact formed.room c member

theorem Formed.free {b : Block} (member : b ∈ live) :
    ∃ fuel heap' ring', free m fuel b.ptr heap = some heap' ∧
      Formed m heap' (live.erase b) ring' := by
  have shape := formed.toShape.perm (List.perm_cons_erase member)
  obtain ⟨heap', ring', result, shape', -⟩ := free_shape shape (Nat.le_refl _)
  exact ⟨_, heap', ring', result, shape', fun c inside => formed.room c (List.mem_of_mem_erase inside)⟩

/-- A store of the program inside its blocks does no harm. -/
theorem Formed.store {next size : Nat → Nat}
    (kept : ∀ unit, ¬ Writable m heap live unit → next unit = heap.next unit ∧
      size unit = heap.size unit) :
    Formed m { heap with next := next, size := size } live ring := by
  have laid := formed.laid
  have freeKept : ∀ p ∈ ring, ¬ Writable m heap live p := by
    rintro p inside (⟨b, member, low, high⟩ | ⟨other, ne⟩)
    · have away := laid.distinct p inside b member
      by_cases same : p = m.root
      · have above := (laid.block_bounds member).1
        omega
      · have full := laid.filled p inside same
        omega
    · have full := laid.filled p inside ne
      exact other ((laid.partition p).mpr (Or.inl ⟨p, inside, Nat.le_refl _, by omega⟩))
  have usedKept : ∀ b ∈ live, ¬ Writable m heap live b.addr := by
    rintro b member (⟨c, other, low, high⟩ | ⟨other, -⟩)
    · have positive := laid.positive b member
      rcases eq_or_ne b c with rfl | different
      · omega
      · have apart : b.Apart c :=
          laid.apart.forall member other different
        unfold Block.Apart at apart
        omega
    · have positive := laid.positive b member
      exact other ((laid.partition b.addr).mpr (Or.inr ⟨b, member, Nat.le_refl _, by omega⟩))
  refine ⟨⟨?_, ?_, formed.entered⟩, formed.room⟩
  · exact laid.congr (fun p inside => (kept p (freeKept p inside)).2)
      (fun b member => (kept _ (usedKept b member)).2)
  · refine Lib.Links.follows_congr (fun p inside => ?_) formed.linked
    exact congrArg some (kept p (freeKept p inside)).1

/-- A step keeps the heap well formed, however much fuel its call was given. -/
theorem Formed.step {heap' : Heap} {live' : List Block}
    (step : Step m heap live heap' live') : ∃ ring', Formed m heap' live' ring' := by
  cases step with
  | @malloc _ _ sbrk fuel size ptr allowed bound done =>
    obtain ⟨fuel', ptr', heap'', ring', result, formed'⟩ := formed.malloc allowed bound
    have first := malloc_mono (Nat.le_max_left fuel fuel') done
    have second := malloc_mono (Nat.le_max_right fuel fuel') result
    obtain ⟨rfl, rfl⟩ : ptr = ptr' ∧ heap' = heap'' := by
      simpa using first.symm.trans second
    exact ⟨ring', formed'⟩
  | @free _ _ fuel b member done =>
    obtain ⟨fuel', heap'', ring', result, formed'⟩ := formed.free member
    have first := free_mono (Nat.le_max_left fuel fuel') done
    have second := free_mono (Nat.le_max_right fuel fuel') result
    obtain rfl : heap' = heap'' := Option.some_inj.mp (first.symm.trans second)
    exact ⟨ring', formed'⟩
  | freeNull done =>
    obtain rfl := Option.some_inj.mp done
    exact ⟨ring, formed⟩
  | store kept => exact ⟨ring, formed.store kept⟩

end

/-- The heap is well formed after every run, and from there every call ends. -/
theorem heap_formed (reached : Reached m heap live) :
    ∃ ring, Formed m heap live ring ∧
      (∀ sbrk size, Allowed m sbrk → size < 2 ^ m.bits →
        ∃ fuel result, malloc m sbrk fuel size heap = some result) ∧
          ∀ b ∈ live, ∃ fuel heap', free m fuel b.ptr heap = some heap' := by
  suffices formed : ∃ ring, Formed m heap live ring by
    obtain ⟨ring, formed⟩ := formed
    refine ⟨ring, formed, fun sbrk size allowed bound => ?_, fun b member => ?_⟩
    · obtain ⟨fuel, ptr, heap', -, result, -⟩ := formed.malloc allowed bound
      exact ⟨fuel, _, result⟩
    · obtain ⟨fuel, heap', -, result, -⟩ := formed.free member
      exact ⟨fuel, heap', result⟩
  induction reached with
  | start initial => exact ⟨_, Formed.start initial⟩
  | step reached step ih =>
    obtain ⟨ring, formed⟩ := ih
    exact formed.step step

def small : Machine := ⟨16, 50, Or.inl rfl, by decide⟩

def breaks (granted : List (Nat × Nat)) (bytes : Nat) : Option Nat :=
  let start := (granted.map fun r => r.1 + r.2).foldr max 100
  if start * 4 + bytes ≤ 4000 then some start else none

theorem breaks_allowed : Allowed small breaks := by
  intro granted bytes p answer
  have least : ∀ ends : List Nat, 100 ≤ ends.foldr max 100 ∧ ∀ e ∈ ends, e ≤ ends.foldr max 100 := by
    intro ends
    induction ends with
    | nil => simp
    | cons e ends ih =>
      simp only [List.foldr_cons, List.mem_cons, forall_eq_or_imp]
      refine ⟨by omega, by omega, fun other member => ?_⟩
      have bound := ih.2 other member
      omega
  unfold breaks at answer
  dsimp only at answer
  split at answer
  next fits =>
      obtain rfl := Option.some_inj.mp answer
      have bounds := least (granted.map fun r => r.1 + r.2)
      refine ⟨?_, ?_, fun r member => Or.inl ?_⟩
      · change 50 < _
        omega
      · change _ * 4 + bytes < 65536
        omega
      · exact bounds.2 _ (List.mem_map_of_mem member)
  next => exact absurd answer (by simp)

def untouched : Heap := ⟨fun _ => 50, fun _ => 0, 50, []⟩

/-- A heap from which ten bytes were allocated. -/
theorem small_formed : ∃ heap ring, Formed small heap [⟨224, 4, 10⟩] ring := by
  have result : ((malloc small breaks 9 10 untouched).map fun out => (out.1, out.2.size 224)) =
      some (225, 4) := by decide +kernel
  obtain ⟨⟨ptr, heap⟩, done, facts⟩ := Option.map_eq_some_iff.mp result
  obtain ⟨rfl, size⟩ : ptr = 225 ∧ heap.size 224 = 4 := by simpa using facts
  have first : Reached small untouched [] := Reached.start ⟨rfl, rfl, rfl, rfl⟩
  have reached := first.step (Step.malloc breaks_allowed (by decide) done)
  obtain ⟨ring, formed, -⟩ := heap_formed reached
  refine ⟨heap, ring, ?_⟩
  have block : (⟨225 - 1, heap.size (225 - 1), 10⟩ : Block) = ⟨224, 4, 10⟩ := by
    rw [show 225 - 1 = 224 from rfl, size]
  rwa [if_neg (by decide), block] at formed

end AckFormal.Ansi.Malloc
