import AckFormal.Ansi.Layout

/-!
# Freeing a block

The shape of the heap, and what `free` makes of it.
-/

namespace AckFormal.Ansi.Malloc

open Lib.Rings Lib.Links
open Function (update update_of_ne update_self)
open List (mem_append_right mem_cons_self pairwise_append pairwise_cons)

namespace Machine

variable (m : Machine)

theorem blockSize_cases : m.blockSize = 4 ∨ m.blockSize = 8 ∨ m.blockSize = 16 := by
  unfold blockSize
  rcases m.width with same | same | same <;> rw [same] <;> simp

theorem blockSize_pos : 0 < m.blockSize := by
  have cases := m.blockSize_cases
  omega

theorem space_mul : m.space * m.blockSize = 2 ^ m.bits := by
  unfold space blockSize
  rcases m.width with same | same | same <;> simp [same]

theorem space_lt : m.space < 2 ^ m.bits :=
  Nat.div_lt_self (Nat.two_pow_pos _) (by have cases := m.blockSize_cases; omega)

variable {m}

theorem advance_of_lt {p n : Nat} (inside : p + n < m.space) : m.advance p n = p + n :=
  Nat.mod_eq_of_lt inside

end Machine

/-- The heap apart from the sizes that the program asked for: the ring leads through the free blocks,
and `__mem_freelist` points into it. -/
structure Shape (m : Machine) (heap : Heap) (live : List Block) (ring : List Nat) : Prop where
  laid : Laid m heap.size heap.granted ring live
  linked : Lib.Rings.Ring heap.next ring
  entered : heap.freelist ∈ ring

namespace Shape

variable {m : Machine} {heap : Heap} {live : List Block} {ring : List Nat}

theorem perm (shape : Shape m heap live ring) {live' : List Block} (same : live.Perm live') :
    Shape m heap live' ring :=
  ⟨shape.laid.perm same, shape.linked, shape.entered⟩

end Shape

variable {p : Nat} {m : Machine} {heap : Heap} {live others : List Block} {front rest : List Nat}
  {b : Block}

/-- An address that is not in the ring falls between two neighbours or behind the last one. -/
theorem split_at {h : Nat} {cells : List Nat} (ordered : (p :: cells).Pairwise (· < ·))
    (before : p < h) (apart : h ∉ cells) :
    ∃ front q rest, p :: cells = front ++ q :: rest ∧ q < h ∧ ∀ c ∈ rest, h < c := by
  induction cells generalizing p with
  | nil => exact ⟨[], p, [], rfl, before, by simp⟩
  | cons following cells ih =>
    have order := pairwise_cons.mp ordered
    have ne : h ≠ following := fun same => apart (same ▸ mem_cons_self)
    by_cases less : following < h
    · obtain ⟨front, q, rest, split, low, high⟩ :=
        ih order.2 less fun member => apart (List.mem_cons_of_mem _ member)
      exact ⟨p :: front, q, rest, by rw [split, List.cons_append], low, high⟩
    · refine ⟨[], p, following :: cells, rfl, before, ?_⟩
      rintro c (_ | ⟨_, member⟩)
      · omega
      · have more := (pairwise_cons.mp order.2).1 c member
        omega

theorem next_eq (shape : Shape m heap live (front ++ p :: rest)) :
    heap.next p = rest.head?.getD m.root := by
  have linked : Follows (fun cell => some (heap.next cell)) (front ++ p :: rest) _ := shape.linked
  rw [shape.laid.root] at linked
  have here := (follows_append.mp linked).2.1
  cases rest with
  | nil => exact Option.some_inj.mp here
  | cons following rest => exact Option.some_inj.mp here

/-- The test of `free` holds of the cell that the block comes after, and of no other one. -/
theorem behind_iff {h : Nat} (shape : Shape m heap live (front ++ p :: rest)) (above : m.root < h) :
    Behind heap h p ↔ p < h ∧ ∀ c ∈ rest, h < c := by
  have follower := next_eq shape
  have least := shape.laid.root_le (mem_append_right front (mem_cons_self (l := rest)))
  have order := (pairwise_append.mp shape.laid.ordered).2.1
  unfold Behind
  rw [follower]
  cases rest with
  | nil =>
    simp only [List.head?_nil, Option.getD_none, List.not_mem_nil, false_implies, implies_true,
      and_true]
    omega
  | cons q rest =>
    have less := (pairwise_cons.mp order).1 q mem_cons_self
    simp only [List.head?_cons, Option.getD_some, List.forall_mem_cons]
    constructor
    · intro test
      have both : p < h ∧ h < q := by omega
      refine ⟨both.1, both.2, fun c member => ?_⟩
      have more := (pairwise_cons.mp (pairwise_cons.mp order).2).1 c member
      omega
    · rintro ⟨low, high, -⟩
      exact Or.inl ⟨low, high⟩

/-- The search of `free` ends at the cell that the block comes after. -/
theorem seek_behind {ring : List Nat} (shape : Shape m heap (b :: live) ring) :
    ∃ front p rest, ring = front ++ p :: rest ∧ p < b.addr ∧ (∀ c ∈ rest, b.addr < c) ∧
      seek heap.next (Behind heap b.addr) ring.length heap.freelist = some p := by
  have above := (shape.laid.block_bounds mem_cons_self).1
  have apart : b.addr ∉ ring := fun inside =>
    shape.laid.ne_addr inside mem_cons_self rfl
  have ascending : ring.Pairwise (· < ·) :=
    shape.laid.ordered.imp fun {p q} less => by omega
  have stops : ∃ p ∈ ring, Behind heap b.addr p := by
    obtain ⟨cells, start⟩ : ∃ cells, ring = m.root :: cells := by
      have first := shape.laid.root
      cases ring with
      | nil => cases first
      | cons p cells => exact ⟨cells, by rw [Option.some_inj.mp first]⟩
    rw [start] at ascending apart
    obtain ⟨front, p, rest, split, low, high⟩ :=
      split_at ascending above fun member => apart (List.mem_cons_of_mem _ member)
    have whole : ring = front ++ p :: rest := start.trans split
    refine ⟨p, whole ▸ mem_append_right front mem_cons_self, ?_⟩
    rw [whole] at shape
    exact (behind_iff shape above).mpr ⟨low, high⟩
  obtain ⟨p, member, passes, found⟩ := seek_ring shape.linked shape.entered stops
  obtain ⟨front, rest, whole⟩ := List.append_of_mem member
  have split := shape
  rw [whole] at split
  obtain ⟨low, high⟩ := (behind_iff split above).mp passes
  exact ⟨front, p, rest, whole, low, high, found⟩

/-- The heap between the two merges: the block has grown over the free one behind it if it touched it,
and leads to the rest of the ring. -/
structure Grown (m : Machine) (heap : Heap) (others : List Block) (front : List Nat) (p : Nat)
    (b : Block) (rest : List Nat) : Prop where
  laid : Laid m heap.size heap.granted (front ++ p :: rest) (b :: others)
  gap : ∀ c ∈ rest, b.addr + b.count < c
  before : Follows (fun cell => some (heap.next cell)) front (some p)
  behind : Follows (fun cell => some (heap.next cell)) (b.addr :: rest) (some m.root)

/-- The block takes in the free one behind it if it touches that. -/
theorem mergeNext_grown (shape : Shape m heap (b :: others) (front ++ p :: rest))
    (high : ∀ c ∈ rest, b.addr < c) :
    ∃ count rest', b.count ≤ count ∧
      Grown m (mergeNext m heap b.addr p) others front p ⟨b.addr, count, b.bytes⟩ rest' ∧
        (mergeNext m heap b.addr p).granted = heap.granted := by
  have laid := shape.laid
  have bounds := laid.block_bounds mem_cons_self
  have header : heap.size b.addr = b.count := laid.headers b mem_cons_self
  have follower := next_eq shape
  have linked : Follows (fun cell => some (heap.next cell)) (front ++ p :: rest)
      (front ++ p :: rest).head? := shape.linked
  rw [laid.root] at linked
  obtain ⟨before, -, behind⟩ := follows_append.mp linked
  have ne : ∀ c ∈ front ++ p :: rest, c ≠ b.addr := fun c member =>
    (laid.ne_addr member mem_cons_self).symm
  have kept : ∀ (value : Nat) (cells : List Nat) (after : Option Nat),
      cells.Sublist (front ++ p :: rest) →
        Follows (fun cell => some (heap.next cell)) cells after →
          Follows (fun cell => some (update heap.next b.addr value cell)) cells after := by
    intro value cells after sub follows
    refine follows_congr (fun c member => ?_) follows
    rw [update_of_ne (ne c (sub.subset member))]
  have frontSub : front.Sublist (front ++ p :: rest) := List.sublist_append_left front _
  have restSub : rest.Sublist (front ++ p :: rest) :=
    (List.sublist_cons_self p rest).trans (List.sublist_append_right front _)
  unfold mergeNext
  dsimp only
  rw [header, follower, Machine.advance_of_lt bounds.2]
  split
  next touch =>
      cases rest with
      | nil =>
        have reached : b.addr + b.count = m.root := touch
        omega
      | cons q rest =>
        have inRing : q ∈ front ++ p :: q :: rest := restSub.subset mem_cons_self
        have other := laid.free_bounds inRing (by have more := high q mem_cons_self; omega)
        have reached : b.addr + b.count = q := touch
        have fits : (b.count + heap.size q) % 2 ^ m.bits = b.count + heap.size q := by
          have room := m.space_lt
          exact Nat.mod_eq_of_lt (by omega)
        have whole : front ++ p :: q :: rest = (front ++ [p]) ++ q :: rest := by simp
        have shorter : front ++ p :: rest = (front ++ [p]) ++ rest := by simp
        have absorbed : Laid m (update heap.size b.addr (b.count + heap.size q)) heap.granted
            (front ++ p :: rest) (⟨b.addr, b.count + heap.size q, b.bytes⟩ :: others) := by
          rw [shorter]
          refine Laid.absorb ?_ (by simp) reached
          rw [← whole]
          exact laid
        have order := pairwise_cons.mp
          (pairwise_cons.mp (pairwise_append.mp laid.ordered).2.1).2
        refine ⟨b.count + heap.size q, rest, Nat.le_add_right _ _, ⟨?_, ?_, ?_, ?_⟩, rfl⟩
        · simp only [List.head?_cons, Option.getD_some, fits]
          exact absorbed
        · intro c member
          have more := order.1 c member
          dsimp only
          omega
        · exact kept _ _ _ frontSub before
        · refine ⟨?_, kept _ _ _ ((List.sublist_cons_self q rest).trans restSub) behind.2⟩
          exact (congrArg some (update_self _ _ _)).trans behind.1
  next away =>
      have apart : ∀ c ∈ rest, b.addr + b.count < c := by
        cases rest with
        | nil => simp
        | cons q rest =>
          have inRing : q ∈ front ++ p :: q :: rest := restSub.subset mem_cons_self
          have more := high q mem_cons_self
          have split := laid.distinct q inRing b mem_cons_self
          have gap : b.addr + b.count ≠ q := away
          have order := pairwise_cons.mp
            (pairwise_cons.mp (pairwise_append.mp laid.ordered).2.1).2
          rintro c (_ | ⟨_, member⟩)
          · omega
          · have later := order.1 c member
            omega
      refine ⟨b.count, rest, Nat.le_refl _, ⟨laid, apart, ?_, ?_⟩, rfl⟩
      · exact kept _ _ _ frontSub before
      · refine ⟨(congrArg some (update_self _ _ _)).trans ?_, kept _ _ _ restSub behind⟩
        cases rest <;> rfl

/-- A freed block comes into the ring in its place. -/
theorem insert_shape (shape : Shape m heap (b :: others) (front ++ p :: rest)) (low : p < b.addr)
    (high : ∀ c ∈ rest, b.addr < c) :
    ∃ ring', Shape m (insert m heap b.addr p) others ring' ∧
      (∃ q ∈ ring', b.count ≤ (insert m heap b.addr p).size q) ∧
        (insert m heap b.addr p).granted = heap.granted := by
  obtain ⟨count, rest', atLeast, grown, granted⟩ := mergeNext_grown shape high
  have laid := grown.laid
  have start : (front ++ p :: rest').head? = some m.root := laid.root
  have bounds := laid.block_bounds mem_cons_self
  have inRing : p ∈ front ++ p :: rest' := mem_append_right _ mem_cons_self
  have order := pairwise_append.mp laid.ordered
  have after := pairwise_cons.mp order.2.1
  have split := laid.distinct p inRing _ mem_cons_self
  have positive := laid.positive _ mem_cons_self
  have header := laid.headers _ mem_cons_self
  dsimp only at bounds split positive header
  have frontNe : ∀ c ∈ front, c ≠ p := by
    intro c early
    have less := order.2.2 c early p mem_cons_self
    omega
  have restNe : ∀ c ∈ rest', c ≠ p := by
    intro c late
    have less := after.1 c late
    omega
  have before : ∀ value : Nat, Follows
      (fun cell => some (update (mergeNext m heap b.addr p).next p value cell)) front (some p) := by
    intro value
    refine follows_congr (fun c early => ?_) grown.before
    rw [update_of_ne (frontNe c early)]
  have behind : ∀ value : Nat, Follows
      (fun cell => some (update (mergeNext m heap b.addr p).next p value cell))
        (b.addr :: rest') (some m.root) := by
    intro value
    refine follows_congr (fun c member => ?_) grown.behind
    rcases List.mem_cons.mp member with rfl | late
    · rw [update_of_ne (by omega)]
    · rw [update_of_ne (restNe c late)]
  unfold insert mergePrevious
  rw [Machine.advance_of_lt (by omega)]
  by_cases touch : p + (mergeNext m heap b.addr p).size p = b.addr
  · have sum : ((mergeNext m heap b.addr p).size p + (mergeNext m heap b.addr p).size b.addr) %
        2 ^ m.bits = (mergeNext m heap b.addr p).size p + count := by
      have room := m.space_lt
      rw [header]
      exact Nat.mod_eq_of_lt (by omega)
    rw [if_pos touch]
    dsimp only
    rw [sum]
    refine ⟨front ++ p :: rest', ⟨?_, ?_, inRing⟩, ⟨p, inRing, ?_⟩, granted⟩
    · exact laid.join touch grown.gap
    · unfold Lib.Rings.Ring
      rw [start]
      refine follows_append.mpr ⟨before _, ?_, (behind _).2⟩
      exact (congrArg some (update_self _ _ _)).trans grown.behind.1
    · rw [update_self]
      omega
  · rw [if_neg touch]
    refine ⟨front ++ p :: b.addr :: rest', ⟨?_, ?_, ?_⟩, ⟨b.addr, ?_, ?_⟩, granted⟩
    · exact laid.enter (by dsimp only; omega) grown.gap
    · unfold Lib.Rings.Ring
      have same : (front ++ p :: b.addr :: rest').head? = some m.root := by
        cases front <;> exact start
      rw [same]
      refine follows_append.mpr ⟨before _, ?_, behind _⟩
      exact congrArg some (update_self _ _ _)
    · exact mem_append_right _ mem_cons_self
    · exact mem_append_right _ (List.mem_cons_of_mem p mem_cons_self)
    · rw [header]
      exact atLeast

/-- `free` ends, and takes the block from the allocated ones. -/
theorem free_shape {ring : List Nat} (shape : Shape m heap (b :: others) ring) {fuel : Nat}
    (enough : ring.length ≤ fuel) :
    ∃ heap' ring', free m fuel b.ptr heap = some heap' ∧ Shape m heap' others ring' ∧
      (∃ q ∈ ring', b.count ≤ heap'.size q) ∧ heap'.granted = heap.granted := by
  obtain ⟨front, p, rest, rfl, low, high, found⟩ := seek_behind shape
  obtain ⟨ring', shape', hole, granted⟩ := insert_shape shape low high
  refine ⟨insert m heap b.addr p, ring', ?_, shape', hole, granted⟩
  unfold free Block.ptr
  simp only [Nat.add_sub_cancel, Nat.add_one_ne_zero, if_false, seek_mono enough found,
    Option.map_some]

theorem free_mono {fuel more ptr : Nat} (le : fuel ≤ more) {heap' : Heap}
    (done : free m fuel ptr heap = some heap') : free m more ptr heap = some heap' := by
  unfold free at done ⊢
  dsimp only at done ⊢
  split
  next null =>
      rw [if_pos null] at done
      exact done
  next some =>
      rw [if_neg some] at done
      obtain ⟨p, found, same⟩ := Option.map_eq_some_iff.mp done
      rw [seek_mono le found, Option.map_some, same]

end AckFormal.Ansi.Malloc
