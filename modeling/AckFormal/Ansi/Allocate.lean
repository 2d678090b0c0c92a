import AckFormal.Ansi.Free

/-!
# Allocating a block

`brkmore` and the search of `malloc` for a hole that is large enough.
-/

namespace AckFormal.Ansi.Malloc

open Lib.Rings Lib.Links

variable {m : Machine} {heap : Heap} {live : List Block} {ring : List Nat}

/-- What `sbrk` returns is a new region above `__mem_root`; the address just behind it is one of the
address space. -/
def Allowed (m : Machine) (sbrk : Sbrk) : Prop :=
  ∀ granted bytes p, sbrk granted bytes = some p →
    m.root < p ∧ p * m.blockSize + bytes < 2 ^ m.bits ∧
      ∀ r ∈ granted, r.1 + r.2 ≤ p ∨ p * m.blockSize + bytes ≤ r.1 * m.blockSize

def Machine.request (m : Machine) (nb : Nat) : Nat := if nb < m.BRKSIZE then m.BRKSIZE else nb

def Refused (m : Machine) (sbrk : Sbrk) (heap : Heap) (nb : Nat) : Prop :=
  m.request nb * m.blockSize % 2 ^ m.bits > 2 ^ (m.bits - 1) - 1 ∨
    sbrk heap.granted (m.request nb * m.blockSize % 2 ^ m.bits) = none

theorem Machine.le_request (nb : Nat) : nb ≤ m.request nb := by
  unfold Machine.request
  split <;> omega

theorem Machine.request_pos (m : Machine) (nb : Nat) : 0 < m.request nb := by
  have few : 0 < m.BRKSIZE := by
    unfold Machine.BRKSIZE
    rcases m.blockSize_cases with same | same | same <;> rw [same] <;> decide
  unfold Machine.request
  split <;> omega

variable {nb fuel nblocks prev p size more : Nat} {sbrk : Sbrk}

theorem Machine.request_bytes (small : nb < m.space) :
    m.request nb * m.blockSize % 2 ^ m.bits = m.request nb * m.blockSize := by
  refine Nat.mod_eq_of_lt ?_
  unfold Machine.request
  split
  · have most : m.BRKSIZE * m.blockSize ≤ 512 := Nat.div_mul_le_self _ _
    have room : 2 ^ 16 ≤ 2 ^ m.bits := by
      refine Nat.pow_le_pow_right (by decide) ?_
      rcases m.width with same | same | same <;> omega
    omega
  · rw [← m.space_mul]
    exact Nat.mul_lt_mul_of_pos_right small m.blockSize_pos

def extended (m : Machine) (heap : Heap) (nb p : Nat) : Heap :=
  { heap with
    size := Function.update heap.size p (m.request nb)
    granted := (p, m.request nb) :: heap.granted }

theorem brkmore_eq (sbrk : Sbrk) (fuel nb : Nat) :
    brkmore m sbrk fuel nb heap =
      if m.request nb * m.blockSize % 2 ^ m.bits > 2 ^ (m.bits - 1) - 1 then some (none, heap)
      else
        match sbrk heap.granted (m.request nb * m.blockSize % 2 ^ m.bits) with
        | none => some (none, heap)
        | some p =>
          (free m fuel (m.advance p 1) (extended m heap nb p)).map
            fun heap => (some heap.freelist, heap) := rfl

theorem brkmore_refused (refused : Refused m sbrk heap nb) :
    brkmore m sbrk fuel nb heap = some (none, heap) := by
  rw [brkmore_eq]
  split
  · rfl
  next small => rw [refused.resolve_left small]

/-- Where it gets memory, the ring has a hole of the size. -/
theorem brkmore_shape (allowed : Allowed m sbrk) (shape : Shape m heap live ring)
    (small : nb < m.space) (enough : ring.length ≤ fuel) (given : ¬ Refused m sbrk heap nb) :
    ∃ heap' ring', brkmore m sbrk fuel nb heap = some (some heap'.freelist, heap') ∧
      Shape m heap' live ring' ∧ ∃ q ∈ ring', nb ≤ heap'.size q := by
  obtain ⟨fits, some⟩ := not_or.mp given
  obtain ⟨p, answer⟩ := Option.ne_none_iff_exists'.mp some
  obtain ⟨above, inside, apart⟩ := allowed _ _ p answer
  have bytes := Machine.request_bytes small
  have positive := m.blockSize_pos
  rw [bytes] at inside apart
  rw [← Nat.add_mul, ← m.space_mul] at inside
  have end_lt : p + m.request nb < m.space := Nat.lt_of_mul_lt_mul_right inside
  have away : ∀ r ∈ heap.granted, r.1 + r.2 ≤ p ∨ p + m.request nb ≤ r.1 := by
    intro r member
    refine (apart r member).imp_right fun less => ?_
    rw [← Nat.add_mul] at less
    exact Nat.le_of_mul_le_mul_right less positive
  have some := m.request_pos nb
  have laid := shape.laid.grant some above end_lt away
  have grown : Shape m (extended m heap nb p) (⟨p, m.request nb, 0⟩ :: live) ring :=
    ⟨laid, shape.linked, shape.entered⟩
  obtain ⟨heap', ring', freed, shape', ⟨q, member, hole⟩, -⟩ := free_shape grown enough
  have start : m.advance p 1 = (⟨p, m.request nb, 0⟩ : Block).ptr :=
    Machine.advance_of_lt (by omega)
  refine ⟨heap', ring', ?_, shape', q, member, Nat.le_trans (Machine.le_request nb) hole⟩
  rw [brkmore_eq, if_neg fits, answer]
  dsimp only
  rw [start, freed, Option.map_some]

/-! ## The hole that is taken -/

def taken (m : Machine) (heap : Heap) (nblocks prev p : Nat) : Nat × Heap :=
  if heap.size p = nblocks then
    (m.advance p 1,
      { heap with next := Function.update heap.next prev (heap.next p), freelist := prev })
  else
    (m.advance (m.advance p (heap.size p - nblocks)) 1,
      { heap with
        size := Function.update (Function.update heap.size p (heap.size p - nblocks))
          (m.advance p (heap.size p - nblocks)) nblocks
        freelist := prev })

/-- A block is taken out of a free one that is large enough. -/
theorem taken_shape (shape : Shape m heap live ring) (some : 0 < nblocks) (entry : prev ∈ ring)
    (follows : heap.next prev = p) (hole : nblocks ≤ heap.size p) (bytes : Nat) :
    ∃ b : Block, ∃ ring', b.count = nblocks ∧ b.bytes = bytes ∧
      (taken m heap nblocks prev p).1 = b.ptr ∧
        Shape m (taken m heap nblocks prev p).2 (b :: live) ring' ∧
          (taken m heap nblocks prev p).2.granted = heap.granted := by
  have inside : p ∈ ring := follows ▸ shape.linked.next_mem entry
  have other : p ≠ m.root := by
    rintro rfl
    have none := shape.laid.rootSize
    omega
  have bounds := shape.laid.free_bounds inside other
  unfold taken
  by_cases whole : heap.size p = nblocks
  · rw [if_pos whole]
    obtain ⟨front, back, rfl⟩ := List.append_of_mem entry
    have follower := next_eq shape
    obtain ⟨rest, rfl⟩ : ∃ rest, back = p :: rest := by
      cases back with
      | nil => exact absurd (follows.symm.trans follower) other
      | cons q rest => exact ⟨rest, by rw [show q = p from follower.symm.trans follows]⟩
    have linked : Follows (fun cell => Option.some (heap.next cell)) (front ++ prev :: p :: rest)
        (front ++ prev :: p :: rest).head? := shape.linked
    rw [shape.laid.root] at linked
    obtain ⟨before, -, here, behind⟩ := follows_append.mp linked
    have order := List.pairwise_append.mp shape.laid.ordered
    have after := List.pairwise_cons.mp order.2.1
    have apart : ∀ c ∈ front ++ rest, c ≠ prev := by
      intro c member
      rcases List.mem_append.mp member with early | late
      · have less := order.2.2 c early prev List.mem_cons_self
        omega
      · have more := after.1 c (List.mem_cons_of_mem p late)
        omega
    have shorter : front ++ prev :: p :: rest = (front ++ [prev]) ++ p :: rest := by simp
    have ring : front ++ prev :: rest = (front ++ [prev]) ++ rest := by simp
    have laid := shape.laid
    rw [shorter] at laid
    have unlinked := laid.unlink (by simp) bytes
    rw [← ring] at unlinked
    have kept : ∀ (cells : List Nat) (after : Option Nat), (∀ c ∈ cells, c ∈ front ++ rest) →
        Follows (fun cell => Option.some (heap.next cell)) cells after →
          Follows (fun cell => Option.some (Function.update heap.next prev (heap.next p) cell)) cells
            after := by
      intro cells after sub linked
      refine follows_congr (fun c member => ?_) linked
      rw [Function.update_of_ne (apart c (sub c member))]
    refine ⟨⟨p, heap.size p, bytes⟩, front ++ prev :: rest, whole, rfl, ?_, ⟨unlinked, ?_, ?_⟩, rfl⟩
    · exact Machine.advance_of_lt (by omega)
    · unfold Lib.Rings.Ring
      rw [unlinked.root]
      refine follows_append.mpr
        ⟨kept _ _ (fun c member => List.mem_append_left rest member) before, ?_,
          kept _ _ (fun c member => List.mem_append_right front member) behind⟩
      exact (congrArg Option.some (Function.update_self _ _ _)).trans here
    · exact List.mem_append_right front List.mem_cons_self
  · rw [if_neg whole]
    have less : nblocks < heap.size p := by omega
    have start : m.advance p (heap.size p - nblocks) = p + (heap.size p - nblocks) :=
      Machine.advance_of_lt (by omega)
    rw [start]
    exact ⟨⟨p + (heap.size p - nblocks), nblocks, bytes⟩, ring, rfl, rfl,
      Machine.advance_of_lt (by omega), ⟨shape.laid.cut inside some less, shape.linked, entry⟩, rfl⟩

/-! ## The loop -/

theorem mallocLoop_taken (hole : nblocks ≤ heap.size p) :
    mallocLoop m sbrk nblocks (fuel + 1) heap prev p = some (taken m heap nblocks prev p) := by
  unfold mallocLoop taken
  split
  · rfl
  · rw [if_pos (by omega)]

theorem mallocLoop_next (small : heap.size p < nblocks) (more : p ≠ heap.freelist) :
    mallocLoop m sbrk nblocks (fuel + 1) heap prev p =
      mallocLoop m sbrk nblocks fuel heap p (heap.next p) := by
  conv_lhs => unfold mallocLoop
  rw [if_neg (by omega), if_neg (by omega), if_neg more]

/-- The loop finds a free block if there is one that is large enough. -/
theorem mallocLoop_hole (sbrk : Sbrk) {cells : List Nat} {after : Option Nat}
    (linked : Follows (fun cell => some (heap.next cell)) (cells ++ [heap.freelist]) after)
    (first : (cells ++ [heap.freelist]).head? = some p) (apart : heap.freelist ∉ cells)
    (follows : heap.next prev = p) (hole : ∃ q ∈ cells ++ [heap.freelist], nblocks ≤ heap.size q) :
    ∃ prev' q, (prev' = prev ∨ prev' ∈ cells) ∧ heap.next prev' = q ∧ nblocks ≤ heap.size q ∧
      ∀ fuel, mallocLoop m sbrk nblocks (cells.length + 1 + fuel) heap prev p =
        some (taken m heap nblocks prev' q) := by
  induction cells generalizing prev p with
  | nil =>
    obtain ⟨q, member, large⟩ := hole
    have same : q = p := by
      rw [List.mem_singleton.mp member]
      exact Option.some_inj.mp first
    rw [same] at large
    refine ⟨prev, p, Or.inl rfl, follows, large, fun fuel => ?_⟩
    rw [List.length_nil, Nat.add_right_comm]
    exact mallocLoop_taken large
  | cons cell cells ih =>
    obtain rfl : cell = p := Option.some_inj.mp first
    by_cases large : nblocks ≤ heap.size cell
    · refine ⟨prev, cell, Or.inl rfl, follows, large, fun fuel => ?_⟩
      rw [Nat.add_right_comm]
      exact mallocLoop_taken large
    · have more : cell ≠ heap.freelist := fun same => apart (same ▸ List.mem_cons_self)
      have later : ∃ q ∈ cells ++ [heap.freelist], nblocks ≤ heap.size q := by
        obtain ⟨q, member, enough⟩ := hole
        rcases List.mem_cons.mp member with rfl | member
        · exact absurd enough large
        · exact ⟨q, member, enough⟩
      have following : (cells ++ [heap.freelist]).head? = some (heap.next cell) := by
        cases cells <;> exact linked.1.symm
      obtain ⟨prev', q, entry, link, enough, result⟩ :=
        ih linked.2 following (fun member => apart (List.mem_cons_of_mem _ member)) rfl later
      refine ⟨prev', q, Or.inr ?_, link, enough, fun fuel => ?_⟩
      · rcases entry with rfl | member
        · exact List.mem_cons_self
        · exact List.mem_cons_of_mem _ member
      · rw [List.length_cons, Nat.add_right_comm (cells.length + 1) 1 fuel,
          mallocLoop_next (Nat.lt_of_not_le large) more]
        exact result fuel

theorem mallocLoop_round (sbrk : Sbrk) {cells : List Nat} {after : Option Nat}
    (linked : Follows (fun cell => some (heap.next cell)) (cells ++ [heap.freelist]) after)
    (first : (cells ++ [heap.freelist]).head? = some p) (apart : heap.freelist ∉ cells)
    (none : ∀ q ∈ cells, heap.size q < nblocks) (fuel : Nat) :
    ∃ prev', mallocLoop m sbrk nblocks (cells.length + fuel) heap prev p =
      mallocLoop m sbrk nblocks fuel heap prev' heap.freelist := by
  induction cells generalizing prev p with
  | nil =>
    obtain rfl : heap.freelist = p := Option.some_inj.mp first
    exact ⟨prev, by rw [List.length_nil, Nat.zero_add]⟩
  | cons cell cells ih =>
    obtain rfl : cell = p := Option.some_inj.mp first
    have more : cell ≠ heap.freelist := fun same => apart (same ▸ List.mem_cons_self)
    have following : (cells ++ [heap.freelist]).head? = some (heap.next cell) := by
      cases cells <;> exact linked.1.symm
    obtain ⟨prev', result⟩ := ih linked.2 following
      (fun member => apart (List.mem_cons_of_mem _ member))
      (fun q member => none q (List.mem_cons_of_mem _ member))
    refine ⟨prev', ?_⟩
    rw [List.length_cons, Nat.add_right_comm, mallocLoop_next (none cell List.mem_cons_self) more]
    exact result

/-- The ring from the cell behind `__mem_freelist` to that one. -/
theorem round (shape : Shape m heap live ring) :
    ∃ cells after, (∀ q, q ∈ cells ++ [heap.freelist] ↔ q ∈ ring) ∧
      cells.length + 1 = ring.length ∧ heap.freelist ∉ cells ∧
        Follows (fun cell => some (heap.next cell)) (cells ++ [heap.freelist]) after ∧
          (cells ++ [heap.freelist]).head? = some (heap.next heap.freelist) := by
  obtain ⟨front, back, whole⟩ := List.append_of_mem shape.entered
  have linked := shape.linked
  rw [whole] at linked
  have entered : Lib.Rings.Ring heap.next ([heap.freelist] ++ (back ++ front)) := linked.rotate
  have turned := entered.rotate
  have nodup : ring.Nodup := shape.laid.ordered.imp fun {p q} less same => by omega
  rw [whole] at nodup
  have apart := List.nodup_append.mp nodup
  refine ⟨back ++ front, _, fun q => ?_, ?_, fun member => ?_, turned, ?_⟩
  · rw [whole]
    grind
  · rw [whole]
    simp only [List.length_append, List.length_cons]
    omega
  · rcases List.mem_append.mp member with late | early
    · exact (List.nodup_cons.mp apart.2.1).1 late
    · exact apart.2.2 _ early _ List.mem_cons_self rfl
  · have here : some (heap.next heap.freelist) = (back ++ front).head?.or (some heap.freelist) :=
      entered.1
    rw [here, List.head?_append]
    rfl

/-! ## The sizes -/

def Machine.blocks (m : Machine) (size : Nat) : Nat := m.blockcount size / m.blockSize

theorem Machine.blockcount_eq (bound : size < 2 ^ m.bits) (fits : ¬ m.blockcount size < size) :
    m.blockcount size = size + m.blockSize + m.blockSize - 1 := by
  have less : m.blockSize + m.blockSize ≤ 2 ^ m.bits := by
    have room : 2 ^ 16 ≤ 2 ^ m.bits := by
      refine Nat.pow_le_pow_right (by decide) ?_
      rcases m.width with same | same | same <;> omega
    have cases := m.blockSize_cases
    omega
  unfold Machine.blockcount at fits ⊢
  by_cases small : size + m.blockSize + m.blockSize - 1 < 2 ^ m.bits
  · exact Nat.mod_eq_of_lt small
  · have wrapped : (size + m.blockSize + m.blockSize - 1) % 2 ^ m.bits =
        size + m.blockSize + m.blockSize - 1 - 2 ^ m.bits := by
      rw [Nat.mod_eq_sub_mod (by omega)]
      exact Nat.mod_eq_of_lt (by omega)
    omega

theorem Machine.blocks_room (bound : size < 2 ^ m.bits) (fits : ¬ m.blockcount size < size) :
    size + m.blockSize ≤ m.blocks size * m.blockSize := by
  have some := m.blockSize_pos
  have count := Machine.blockcount_eq bound fits
  have split := Nat.div_add_mod (m.blockcount size) m.blockSize
  have rest := Nat.mod_lt (m.blockcount size) some
  unfold Machine.blocks
  rw [Nat.mul_comm]
  omega

theorem Machine.blocks_lt (m : Machine) (size : Nat) : m.blocks size < m.space := by
  have below : m.blockcount size < 2 ^ m.bits := Nat.mod_lt _ (Nat.two_pow_pos _)
  rw [← m.space_mul] at below
  exact (Nat.div_lt_iff_lt_mul m.blockSize_pos).mpr below

/-- `malloc` fails: the size overflows, or no free block is large enough and `sbrk` gives none. -/
def Failing (m : Machine) (sbrk : Sbrk) (heap : Heap) (size : Nat) : Prop :=
  m.blockcount size < size ∨
    (∀ n, heap.size (heap.next^[n] heap.freelist) < m.blocks size) ∧
      Refused m sbrk heap (m.blocks size)

theorem small_iff (shape : Shape m heap live ring) (nblocks : Nat) :
    (∀ n, heap.size (heap.next^[n] heap.freelist) < nblocks) ↔
      ∀ q ∈ ring, heap.size q < nblocks := by
  constructor
  · intro small q member
    obtain ⟨n, rfl⟩ := shape.linked.reaches shape.entered member
    exact small n
  · exact fun small n => small _ (shape.linked.iterate_mem shape.entered n)

theorem malloc_failing (shape : Shape m heap live ring) (failing : Failing m sbrk heap size) :
    ∃ fuel, malloc m sbrk fuel size heap = some (0, heap) := by
  unfold malloc
  by_cases overflow : m.blockcount size < size
  · exact ⟨0, if_pos overflow⟩
  · obtain ⟨small, refused⟩ := failing.resolve_left overflow
    rw [small_iff shape] at small
    obtain ⟨cells, after, same, -, apart, linked, first⟩ := round shape
    obtain ⟨prev, turned⟩ := mallocLoop_round (m := m) sbrk linked first apart
      (fun q member => small q ((same q).mp (List.mem_append_left _ member))) 1
    refine ⟨cells.length + 1, ?_⟩
    rw [if_neg overflow]
    change mallocLoop m sbrk (m.blocks size) _ _ _ _ = _
    rw [turned]
    have last := small heap.freelist shape.entered
    unfold mallocLoop
    rw [if_neg (by omega), if_neg (by omega), if_pos rfl, brkmore_refused refused]

theorem mallocLoop_shape (sbrk : Sbrk) (shape : Shape m heap live ring) (some : 0 < nblocks)
    (hole : ∃ q ∈ ring, nblocks ≤ heap.size q) (size : Nat) :
    ∃ enough, ∃ b : Block, ∃ heap' ring', b.count = nblocks ∧ b.bytes = size ∧
      Shape m heap' (b :: live) ring' ∧
        ∀ fuel, mallocLoop m sbrk nblocks (enough + fuel) heap heap.freelist
          (heap.next heap.freelist) = Option.some (b.ptr, heap') := by
  obtain ⟨cells, after, same, -, apart, linked, first⟩ := round shape
  have member : ∃ q ∈ cells ++ [heap.freelist], nblocks ≤ heap.size q := by
    obtain ⟨q, inside, large⟩ := hole
    exact ⟨q, (same q).mpr inside, large⟩
  obtain ⟨prev, q, entry, follows, large, result⟩ :=
    mallocLoop_hole (m := m) sbrk linked first apart rfl member
  have inside : prev ∈ ring := by
    refine (same prev).mp ?_
    rcases entry with rfl | early
    · exact List.mem_append_right _ List.mem_cons_self
    · exact List.mem_append_left _ early
  obtain ⟨b, ring', count, bytes, ptr, shape', -⟩ := taken_shape shape some inside follows large size
  refine ⟨cells.length + 1, b, _, ring', count, bytes, shape', fun fuel => ?_⟩
  rw [result, ← ptr]

theorem brkmore_mono (le : fuel ≤ more) {result : Option Nat × Heap}
    (done : brkmore m sbrk fuel nb heap = some result) :
    brkmore m sbrk more nb heap = some result := by
  rw [brkmore_eq] at done ⊢
  split
  next large =>
      rw [if_pos large] at done
      exact done
  next fits =>
      rw [if_neg fits] at done
      cases answer : sbrk heap.granted (m.request nb * m.blockSize % 2 ^ m.bits) with
      | none =>
        rw [answer] at done
        exact done
      | some p =>
        rw [answer] at done
        obtain ⟨heap', freed, same⟩ := Option.map_eq_some_iff.mp done
        dsimp only
        rw [free_mono le freed, Option.map_some, same]

/-- More fuel does not change a result. -/
theorem mallocLoop_mono (le : fuel ≤ more) {result : Nat × Heap}
    (done : mallocLoop m sbrk nblocks fuel heap prev p = some result) :
    mallocLoop m sbrk nblocks more heap prev p = some result := by
  induction fuel generalizing more heap prev p with
  | zero => cases done
  | succ fuel ih =>
    obtain ⟨more, rfl⟩ : ∃ k, more = k + 1 := ⟨more - 1, by omega⟩
    unfold mallocLoop at done ⊢
    split
    next whole =>
        rw [if_pos whole] at done
        exact done
    next other =>
        rw [if_neg other] at done
        split
        next large =>
            rw [if_pos large] at done
            exact done
        next small =>
            rw [if_neg small] at done
            split
            next last =>
                rw [if_pos last] at done
                cases got : brkmore m sbrk fuel nblocks heap with
                | none =>
                  rw [got] at done
                  cases done
                | some outcome =>
                  rw [got] at done
                  rw [brkmore_mono (by omega) got]
                  obtain ⟨entry, heap'⟩ := outcome
                  cases entry with
                  | none => exact done
                  | some entry => exact ih (by omega) done
            next further =>
                rw [if_neg further] at done
                exact ih (by omega) done

theorem malloc_mono (le : fuel ≤ more) {result : Nat × Heap}
    (done : malloc m sbrk fuel size heap = some result) :
    malloc m sbrk more size heap = some result := by
  unfold malloc at done ⊢
  dsimp only at done ⊢
  split
  next overflow =>
      rw [if_pos overflow] at done
      exact done
  next fits =>
      rw [if_neg fits] at done
      exact mallocLoop_mono le done

/-- `malloc` ends with a block of its own, and the heap is well formed again. -/
theorem malloc_shape (allowed : Allowed m sbrk) (shape : Shape m heap live ring)
    (bound : size < 2 ^ m.bits) (works : ¬ Failing m sbrk heap size) :
    ∃ fuel, ∃ b : Block, ∃ heap' ring', malloc m sbrk fuel size heap = some (b.ptr, heap') ∧
      b.count = m.blocks size ∧ b.bytes = size ∧ Shape m heap' (b :: live) ring' := by
  obtain ⟨fits, enough⟩ := not_or.mp works
  have room := Machine.blocks_room bound fits
  have some : 0 < m.blocks size := by
    refine Nat.pos_of_ne_zero fun none => ?_
    have unit := m.blockSize_pos
    rw [none, Nat.zero_mul] at room
    omega
  have start : ∀ fuel, malloc m sbrk fuel size heap =
      mallocLoop m sbrk (m.blocks size) fuel heap heap.freelist (heap.next heap.freelist) :=
    fun fuel => if_neg fits
  by_cases hole : ∃ q ∈ ring, m.blocks size ≤ heap.size q
  · obtain ⟨fuel, b, heap', ring', count, bytes, shape', result⟩ :=
      mallocLoop_shape sbrk shape some hole size
    exact ⟨fuel, b, heap', ring', (start fuel).trans (result 0), count, bytes, shape'⟩
  · have small : ∀ q ∈ ring, heap.size q < m.blocks size := by
      intro q member
      exact Nat.lt_of_not_le fun large => hole ⟨q, member, large⟩
    have given : ¬ Refused m sbrk heap (m.blocks size) := fun refused =>
      enough ⟨(small_iff shape _).mpr small, refused⟩
    obtain ⟨heap1, ring1, got, shape1, hole1⟩ :=
      brkmore_shape allowed shape (m.blocks_lt size) (Nat.le_refl _) given
    obtain ⟨more, b, heap', ring', count, bytes, shape', result⟩ :=
      mallocLoop_shape sbrk shape1 some hole1 size
    obtain ⟨cells, after, same, length, apart, linked, first⟩ := round shape
    obtain ⟨prev, turned⟩ := mallocLoop_round (m := m) sbrk linked first apart
      (fun q member => small q ((same q).mp (List.mem_append_left _ member)))
      (more + ring.length + 1)
    refine ⟨cells.length + (more + ring.length + 1), b, heap', ring', ?_, count, bytes, shape'⟩
    have last := small heap.freelist shape.entered
    rw [start, turned]
    unfold mallocLoop
    rw [if_neg (by omega), if_neg (by omega), if_pos rfl, brkmore_mono (by omega) got]
    exact result ring.length

end AckFormal.Ansi.Malloc
