import AckFormal.Ansi.Malloc
import Mathlib.Data.List.Pairwise
import Mathlib.Order.Basic

/-!
# The layout of the heap

Where the free blocks and the allocated ones lie, apart from how the free ones are linked, and what the
pieces of `malloc` and `free` make of it.
-/

namespace AckFormal.Ansi.Malloc

open Function (update update_of_ne update_self)
open List (mem_append mem_append_right mem_cons mem_cons_of_mem mem_cons_self pairwise_append
  pairwise_cons)

/-- An allocated block: its header, its units with the header, and the bytes that were asked for. -/
structure Block where
  addr : Nat
  count : Nat
  bytes : Nat
  deriving DecidableEq

namespace Block

def ptr (b : Block) : Nat := b.addr + 1

def Holds (b : Block) (unit : Nat) : Prop := b.addr ≤ unit ∧ unit < b.addr + b.count

def Apart (a b : Block) : Prop := a.addr + a.count ≤ b.addr ∨ b.addr + b.count ≤ a.addr

theorem Apart.symm {a b : Block} (apart : Apart a b) : Apart b a := Or.symm apart

instance : Std.Symm Apart := ⟨fun _ _ => Apart.symm⟩

end Block

def Given (granted : List (Nat × Nat)) (unit : Nat) : Prop :=
  ∃ r ∈ granted, r.1 ≤ unit ∧ unit < r.1 + r.2

def Free (size : Nat → Nat) (ring : List Nat) (unit : Nat) : Prop :=
  ∃ p ∈ ring, p ≤ unit ∧ unit < p + size p

def Used (live : List Block) (unit : Nat) : Prop := ∃ b ∈ live, b.Holds unit

variable {size : Nat → Nat} {unit : Nat}

@[simp]
theorem free_append {front rest : List Nat} :
    Free size (front ++ rest) unit ↔ Free size front unit ∨ Free size rest unit := by
  simp only [Free, mem_append, or_and_right, exists_or]

@[simp]
theorem free_cons {p : Nat} {rest : List Nat} :
    Free size (p :: rest) unit ↔ (p ≤ unit ∧ unit < p + size p) ∨ Free size rest unit := by
  simp only [Free, List.exists_mem_cons_iff]

variable {size' : Nat → Nat}

theorem free_congr {ring : List Nat} (same : ∀ p ∈ ring, size' p = size p)
    (unit : Nat) : Free size' ring unit ↔ Free size ring unit :=
  exists_congr fun p => and_congr_right fun inside => by rw [same p inside]

@[simp]
theorem used_cons {b : Block} {live : List Block} :
    Used (b :: live) unit ↔ b.Holds unit ∨ Used live unit := by
  simp only [Used, List.exists_mem_cons_iff]

@[simp]
theorem used_nil : ¬Used [] unit := fun ⟨_, inside, _⟩ => nomatch inside

@[simp]
theorem used_append {front rest : List Block} :
    Used (front ++ rest) unit ↔ Used front unit ∨ Used rest unit := by
  simp only [Used, mem_append, or_and_right, exists_or]

/-- The free blocks are those of the ring: they are in order, and no two touch. With the allocated ones
they fill what `sbrk` has given. -/
structure Laid (m : Machine) (size : Nat → Nat) (granted : List (Nat × Nat)) (ring : List Nat)
    (live : List Block) : Prop where
  root : ring.head? = some m.root
  rootSize : size m.root = 0
  ordered : ring.Pairwise fun p q => p + size p < q
  filled : ∀ p ∈ ring, p ≠ m.root → 0 < size p
  headers : ∀ b ∈ live, size b.addr = b.count
  positive : ∀ b ∈ live, 0 < b.count
  apart : live.Pairwise Block.Apart
  distinct : ∀ p ∈ ring, ∀ b ∈ live, p + size p ≤ b.addr ∨ b.addr + b.count ≤ p
  regions : ∀ r ∈ granted, m.root < r.1 ∧ r.1 + r.2 < m.space
  partition : ∀ unit, Given granted unit ↔ Free size ring unit ∨ Used live unit

namespace Laid

variable {m : Machine} {size : Nat → Nat} {granted : List (Nat × Nat)} {ring : List Nat}
  {live : List Block}

theorem root_mem (laid : Laid m size granted ring live) : m.root ∈ ring :=
  List.mem_of_mem_head? laid.root

variable {b : Block} {p q : Nat} {front rest : List Nat}

section

variable (laid : Laid m size granted ring live)
include laid

/-- The units of an allocated block are above the root and inside the address space. -/
theorem block_bounds (member : b ∈ live) :
    m.root < b.addr ∧ b.addr + b.count < m.space := by
  have some := laid.positive b member
  obtain ⟨r, given, low, -⟩ :=
    (laid.partition b.addr).mpr (Or.inr ⟨b, member, Nat.le_refl _, by omega⟩)
  obtain ⟨r', given', -, high⟩ :=
    (laid.partition (b.addr + b.count - 1)).mpr (Or.inr ⟨b, member, by omega, by omega⟩)
  have above := (laid.regions r given).1
  have below := (laid.regions r' given').2
  omega

theorem free_bounds (member : p ∈ ring) (other : p ≠ m.root) :
    m.root < p ∧ p + size p < m.space := by
  have some := laid.filled p member other
  obtain ⟨r, given, low, -⟩ :=
    (laid.partition p).mpr (Or.inl ⟨p, member, Nat.le_refl _, by omega⟩)
  obtain ⟨r', given', -, high⟩ :=
    (laid.partition (p + size p - 1)).mpr (Or.inl ⟨p, member, by omega, by omega⟩)
  have above := (laid.regions r given).1
  have below := (laid.regions r' given').2
  omega

theorem root_le (member : p ∈ ring) : m.root ≤ p := by
  by_cases same : p = m.root
  · exact Nat.le_of_eq same.symm
  · exact Nat.le_of_lt (laid.free_bounds member same).1

theorem ne_addr (member : p ∈ ring) (allocated : b ∈ live) :
    b.addr ≠ p := by
  have above := (laid.block_bounds allocated).1
  have some := laid.positive b allocated
  by_cases same : p = m.root
  · omega
  · have full := laid.filled p member same
    have away := laid.distinct p member b allocated
    omega

theorem perm {live' : List Block} (same : live.Perm live') :
    Laid m size granted ring live' where
  root := laid.root
  rootSize := laid.rootSize
  ordered := laid.ordered
  filled := laid.filled
  headers := fun b member => laid.headers b (same.mem_iff.mpr member)
  positive := fun b member => laid.positive b (same.mem_iff.mpr member)
  apart := (same.pairwise_iff fun apart => apart.symm).mp laid.apart
  distinct := fun p inside b member => laid.distinct p inside b (same.mem_iff.mpr member)
  regions := laid.regions
  partition := fun unit => by
    have used : Used live' unit ↔ Used live unit :=
      exists_congr fun b => and_congr_left' same.mem_iff.symm
    rw [used]
    exact laid.partition unit

theorem congr
    (free : ∀ p ∈ ring, size' p = size p) (allocated : ∀ b ∈ live, size' b.addr = size b.addr) :
    Laid m size' granted ring live where
  root := laid.root
  rootSize := (free _ laid.root_mem).trans laid.rootSize
  ordered := by
    refine laid.ordered.imp_of_mem fun inside _ less => ?_
    rw [free _ inside]
    exact less
  filled := fun p inside other => by
    rw [free p inside]
    exact laid.filled p inside other
  headers := fun b member => (allocated b member).trans (laid.headers b member)
  positive := laid.positive
  apart := laid.apart
  distinct := fun p inside b member => by
    rw [free p inside]
    exact laid.distinct p inside b member
  regions := laid.regions
  partition := fun unit => by
    rw [free_congr free]
    exact laid.partition unit

/-- What `sbrk` gives counts as one more block of the program. -/
theorem grant {nb : Nat} (some : 0 < nb) (above : m.root < p)
    (inside : p + nb < m.space) (apart : ∀ r ∈ granted, r.1 + r.2 ≤ p ∨ p + nb ≤ r.1) :
    Laid m (update size p nb) ((p, nb) :: granted) ring (⟨p, nb, 0⟩ :: live) := by
  have fresh : ∀ unit, p ≤ unit → unit < p + nb → ¬ Given granted unit := by
    rintro unit low high ⟨r, given, start, below⟩
    rcases apart r given with less | more <;> omega
  have freeApart : ∀ q ∈ ring, q + size q ≤ p ∨ p + nb ≤ q := by
    intro q member
    by_cases same : q = m.root
    · rw [same, laid.rootSize]
      omega
    · by_contra overlap
      have full := laid.filled q member same
      refine fresh (max q p) (by omega) (by omega) ?_
      exact (laid.partition _).mpr (Or.inl ⟨q, member, by omega, by omega⟩)
  have liveApart : ∀ b ∈ live, p + nb ≤ b.addr ∨ b.addr + b.count ≤ p := by
    intro b member
    by_contra overlap
    have full := laid.positive b member
    refine fresh (max b.addr p) (by omega) (by omega) ?_
    exact (laid.partition _).mpr (Or.inr ⟨b, member, by omega, by omega⟩)
  have freeNe : ∀ q ∈ ring, q ≠ p := by
    rintro q member rfl
    by_cases same : q = m.root
    · omega
    · have full := laid.filled q member same
      rcases freeApart q member with less | more <;> omega
  have liveNe : ∀ b ∈ live, b.addr ≠ p := by
    intro b member same
    have full := laid.positive b member
    rcases liveApart b member with less | more <;> omega
  have kept : Laid m (update size p nb) granted ring live :=
    laid.congr (fun q member => update_of_ne (freeNe q member) _ _)
      (fun b member => update_of_ne (liveNe b member) _ _)
  refine ⟨kept.root, kept.rootSize, kept.ordered, kept.filled, ?_, ?_, ?_, ?_, ?_, ?_⟩
  · rintro b (_ | ⟨_, member⟩)
    · exact update_self _ _ _
    · exact kept.headers b member
  · rintro b (_ | ⟨_, member⟩)
    · exact some
    · exact kept.positive b member
  · exact pairwise_cons.mpr ⟨fun b member => liveApart b member, kept.apart⟩
  · rintro q free b (_ | ⟨_, member⟩)
    · rw [update_of_ne (freeNe q free)]
      exact freeApart q free
    · exact kept.distinct q free b member
  · rintro r (_ | ⟨_, given⟩)
    · exact ⟨above, inside⟩
    · exact kept.regions r given
  · intro unit
    have region : Given ((p, nb) :: granted) unit ↔
        (p ≤ unit ∧ unit < p + nb) ∨ Given granted unit := List.exists_mem_cons_iff _ _ _
    rw [region, kept.partition unit, used_cons]
    exact or_left_comm

end

/-- Some of the allocated blocks are made into others on the same units. -/
theorem reshape (old new : List Block)
    (laid : Laid m size granted ring (old ++ live)) (units : ∀ unit, Used new unit ↔ Used old unit)
    (positive : ∀ b ∈ new, 0 < b.count) (apart : new.Pairwise Block.Apart)
    (headers : ∀ b ∈ new, size' b.addr = b.count) (sizes : ∀ p, ¬Used old p → size' p = size p) :
    Laid m size' granted ring (new ++ live) := by
  have parts := pairwise_append.mp laid.apart
  have ringSize : ∀ p ∈ ring, size' p = size p := by
    intro p free
    refine sizes p ?_
    rintro ⟨b, member, low, high⟩
    have inside : b ∈ old ++ live := List.mem_append_left _ member
    have away := laid.distinct p free b inside
    have ne := laid.ne_addr free inside
    omega
  have liveSize : ∀ c ∈ live, size' c.addr = size c.addr := by
    intro c allocated
    refine sizes c.addr ?_
    rintro ⟨b, member, low, high⟩
    have away := parts.2.2 b member c allocated
    have full := laid.positive c (mem_append_right _ allocated)
    unfold Block.Apart at away
    omega
  refine ⟨laid.root, (ringSize _ laid.root_mem).trans laid.rootSize, ?_, ?_, ?_, ?_, ?_, ?_,
    laid.regions, ?_⟩
  · refine laid.ordered.imp_of_mem fun inside _ less => ?_
    rw [ringSize _ inside]
    exact less
  · intro p free other
    rw [ringSize p free]
    exact laid.filled p free other
  · intro b inside
    rcases mem_append.mp inside with member | allocated
    · exact headers b member
    · exact (liveSize b allocated).trans (laid.headers b (mem_append_right _ allocated))
  · intro b inside
    rcases mem_append.mp inside with member | allocated
    · exact positive b member
    · exact laid.positive b (mem_append_right _ allocated)
  · refine pairwise_append.mpr ⟨apart, parts.2.1, fun b member c allocated => ?_⟩
    by_contra overlap
    have some := positive b member
    have full := laid.positive c (mem_append_right _ allocated)
    unfold Block.Apart at overlap
    obtain ⟨b', member', low, high⟩ :=
      (units (max b.addr c.addr)).mp ⟨b, member, by unfold Block.Holds; omega⟩
    have away := parts.2.2 b' member' c allocated
    unfold Block.Apart at away
    omega
  · intro p free b inside
    rw [ringSize p free]
    rcases mem_append.mp inside with member | allocated
    · by_contra overlap
      have some := positive b member
      obtain ⟨b', member', low, high⟩ :=
        (units (max b.addr p)).mp ⟨b, member, by unfold Block.Holds; omega⟩
      have inside' : b' ∈ old ++ live := List.mem_append_left _ member'
      have away := laid.distinct p free b' inside'
      have ne := laid.ne_addr free inside'
      omega
    · exact laid.distinct p free b (mem_append_right _ allocated)
  · intro unit
    rw [laid.partition unit, free_congr ringSize, used_append, used_append, units unit]

theorem fuse {c : Block} (laid : Laid m size granted ring (b :: c :: live))
    (touch : b.addr + b.count = c.addr) (bytes : Nat) :
    Laid m (update size b.addr (b.count + c.count)) granted ring
      (⟨b.addr, b.count + c.count, bytes⟩ :: live) := by
  have full := laid.positive b mem_cons_self
  refine laid.reshape [b, c] [⟨b.addr, b.count + c.count, bytes⟩] ?_ ?_
    (List.pairwise_singleton _ _) ?_ ?_
  · intro unit
    simp only [used_cons, used_nil, or_false, Block.Holds]
    omega
  · rintro d (_ | ⟨_, ⟨⟩⟩)
    exact Nat.add_pos_left full _
  · rintro d (_ | ⟨_, ⟨⟩⟩)
    exact update_self _ _ _
  · intro p outside
    refine update_of_ne ?_ _ _
    rintro rfl
    exact outside ⟨b, mem_cons_self, by unfold Block.Holds; omega⟩

/-- The end of an allocated block is made a block of its own. -/
theorem split {k bytes : Nat} (laid : Laid m size granted ring (b :: live)) (some : 0 < k)
    (less : k < b.count) :
    Laid m (update (update size b.addr (b.count - k)) (b.addr + (b.count - k)) k) granted ring
      (⟨b.addr, b.count - k, b.bytes⟩ :: ⟨b.addr + (b.count - k), k, bytes⟩ :: live) := by
  refine laid.reshape [b] [⟨b.addr, b.count - k, b.bytes⟩, ⟨b.addr + (b.count - k), k, bytes⟩]
    ?_ ?_ (List.pairwise_pair.mpr (Or.inl (Nat.le_refl _))) ?_ ?_
  · intro unit
    simp only [used_cons, used_nil, or_false, Block.Holds]
    omega
  · rintro d (_ | ⟨_, _ | ⟨_, ⟨⟩⟩⟩)
    · exact Nat.sub_pos_of_lt less
    · exact some
  · rintro d (_ | ⟨_, _ | ⟨_, ⟨⟩⟩⟩)
    · rw [update_of_ne (by dsimp only; omega), update_self]
    · exact update_self _ _ _
  · intro p outside
    have away : ¬b.Holds p := fun holds => outside ⟨b, mem_cons_self, holds⟩
    unfold Block.Holds at away
    rw [update_of_ne (by omega), update_of_ne (by omega)]

/-- The root stays at the front of what is left of the ring. -/
theorem above_root (laid : Laid m size granted (front ++ q :: rest) live) (some : front ≠ []) :
    m.root < q := by
  obtain ⟨first, front', rfl⟩ := List.exists_cons_of_ne_nil some
  have same : first = m.root := Option.some_inj.mp laid.root
  have less := (pairwise_append.mp laid.ordered).2.2 first mem_cons_self q
    mem_cons_self
  rw [same, laid.rootSize] at less
  exact less

/-- Putting an allocated block between two free ones that it does not touch. -/
theorem enter (laid : Laid m size granted (front ++ p :: rest) (b :: live))
    (before : p + size p < b.addr) (gap : ∀ c ∈ rest, b.addr + b.count < c) :
    Laid m size granted (front ++ p :: b.addr :: rest) live := by
  have order := pairwise_append.mp laid.ordered
  have after := pairwise_cons.mp order.2.1
  have full := laid.positive b mem_cons_self
  have header := laid.headers b mem_cons_self
  have apart := pairwise_cons.mp laid.apart
  have members : ∀ {q : Nat}, q ∈ front ++ p :: b.addr :: rest →
      q = b.addr ∨ q ∈ front ++ p :: rest := by
    intro q inside
    grind
  refine ⟨?_, laid.rootSize, ?_, ?_, ?_, ?_, apart.2, ?_, laid.regions, ?_⟩
  · cases front with
    | nil => exact laid.root
    | cons first front' => exact laid.root
  · refine pairwise_append.mpr
      ⟨order.1, pairwise_cons.mpr ⟨?_, pairwise_cons.mpr ⟨?_, after.2⟩⟩, ?_⟩
    · rintro c (_ | ⟨_, late⟩)
      · exact before
      · exact after.1 c late
    · intro c late
      rw [header]
      exact gap c late
    · intro q early c inside
      have less := order.2.2 q early p mem_cons_self
      rcases mem_cons.mp inside with rfl | inside
      · exact less
      · rcases mem_cons.mp inside with rfl | late
        · omega
        · exact order.2.2 q early c (mem_cons_of_mem p late)
  · intro q inside different
    rcases members inside with rfl | inside
    · rw [header]
      exact full
    · exact laid.filled q inside different
  · exact fun c member => laid.headers c (mem_cons_of_mem b member)
  · exact fun c member => laid.positive c (mem_cons_of_mem b member)
  · intro q inside c member
    rcases members inside with rfl | inside
    · rw [header]
      exact apart.1 c member
    · exact laid.distinct q inside c (mem_cons_of_mem b member)
  · intro unit
    rw [laid.partition unit]
    simp only [free_append, free_cons, used_cons, Block.Holds]
    grind

/-- A block is taken out of the ring of free ones. -/
theorem unlink (laid : Laid m size granted (front ++ q :: rest) live) (some : front ≠ [])
    (bytes : Nat) : Laid m size granted (front ++ rest) (⟨q, size q, bytes⟩ :: live) := by
  have sub : (front ++ rest).Sublist (front ++ q :: rest) :=
    List.Sublist.append_left (List.sublist_cons_self q rest) front
  have inRing : q ∈ front ++ q :: rest := mem_append_right _ mem_cons_self
  have above := laid.above_root some
  have full := laid.filled q inRing (by omega)
  have order := pairwise_append.mp laid.ordered
  have after := pairwise_cons.mp order.2.1
  refine ⟨?_, laid.rootSize, laid.ordered.sublist sub, ?_, ?_, ?_, ?_, ?_, laid.regions, ?_⟩
  · obtain ⟨first, front', rfl⟩ := List.exists_cons_of_ne_nil some
    exact laid.root
  · exact fun p inside => laid.filled p (sub.subset inside)
  · rintro b (_ | ⟨_, member⟩)
    · rfl
    · exact laid.headers b member
  · rintro b (_ | ⟨_, member⟩)
    · exact full
    · exact laid.positive b member
  · exact pairwise_cons.mpr ⟨fun b member => laid.distinct q inRing b member, laid.apart⟩
  · rintro p inside b (_ | ⟨_, member⟩)
    · dsimp only
      rcases mem_append.mp inside with early | late
      · have less := order.2.2 p early q mem_cons_self
        omega
      · have less := after.1 p late
        omega
    · exact laid.distinct p (sub.subset inside) b member
  · intro unit
    rw [laid.partition unit]
    simp only [free_append, free_cons, used_cons, Block.Holds]
    grind

/-- Merging the free block behind an allocated one onto it. -/
theorem absorb (laid : Laid m size granted (front ++ q :: rest) (b :: live)) (some : front ≠ [])
    (touch : b.addr + b.count = q) :
    Laid m (update size b.addr (b.count + size q)) granted (front ++ rest)
      (⟨b.addr, b.count + size q, b.bytes⟩ :: live) :=
  ((laid.unlink some 0).perm (List.Perm.swap _ _ _)).fuse touch b.bytes

/-- A free block that became an allocated one is free again, on units of its own. -/
theorem relink (before : Laid m size granted (front ++ p :: rest) live')
    (laid : Laid m size' granted (front ++ rest) (b :: live)) (some : front ≠ [])
    (same : b.addr = p) (sizes : ∀ q ∈ front, size' q = size q)
    (gap : ∀ c ∈ rest, b.addr + b.count < c) :
    Laid m size' granted (front ++ p :: rest) live := by
  obtain ⟨front', last, rfl⟩ := (List.eq_nil_or_concat' front).resolve_left some
  have less := (pairwise_append.mp before.ordered).2.2 last (by simp) p mem_cons_self
  rw [List.append_assoc] at laid ⊢
  subst same
  refine laid.enter ?_ gap
  rw [sizes last (by simp)]
  exact less

theorem ne_nil (laid : Laid m size granted (front ++ p :: rest) live) (other : p ≠ m.root) :
    front ≠ [] := by
  rintro rfl
  exact other (Option.some_inj.mp laid.root)

/-- Merging an allocated block onto the free one before it. -/
theorem join (laid : Laid m size granted (front ++ p :: rest) (b :: live))
    (touch : p + size p = b.addr) (gap : ∀ c ∈ rest, b.addr + b.count < c) :
    Laid m (update size p (size p + b.count)) granted (front ++ p :: rest) live := by
  have above := (laid.block_bounds mem_cons_self).1
  have other : p ≠ m.root := by
    rintro rfl
    rw [laid.rootSize] at touch
    omega
  have some := laid.ne_nil other
  refine laid.relink ((laid.unlink some 0).fuse touch 0) some rfl ?_ ?_
  · intro q early
    have less := (pairwise_append.mp laid.ordered).2.2 q early p mem_cons_self
    exact update_of_ne (by omega) _ _
  · intro c late
    have more := gap c late
    dsimp only
    omega

theorem cut {k bytes : Nat} (laid : Laid m size granted ring live) (inside : q ∈ ring)
    (some : 0 < k) (less : k < size q) :
    Laid m (update (update size q (size q - k)) (q + (size q - k)) k) granted ring
      (⟨q + (size q - k), k, bytes⟩ :: live) := by
  have other : q ≠ m.root := by
    rintro rfl
    rw [laid.rootSize] at less
    omega
  obtain ⟨front, rest, rfl⟩ := List.append_of_mem inside
  have order := pairwise_append.mp laid.ordered
  have filled := laid.ne_nil other
  refine laid.relink ((laid.unlink filled 0).split some less) filled rfl ?_ ?_
  · intro p early
    have before := order.2.2 p early q mem_cons_self
    rw [update_of_ne (by omega), update_of_ne (by omega)]
  · intro c late
    have behind := (pairwise_cons.mp order.2.1).1 c late
    dsimp only
    omega

end Laid

end AckFormal.Ansi.Malloc
