import Mathlib.Logic.Equiv.Basic
import Mathlib.Algebra.Group.End
import Mathlib.Tactic.Ring

/-!
# Sorting and searching an array

`qsort` and `bsearch` of the C library. The elements are parted around those equal to one in the
middle, which are kept together while the smaller and the larger ones are brought to their sides.
-/

namespace AckFormal.Ansi.Sorting

open Function (update)

/-- The memory around the array; an address counts from the start of the array. -/
abbrev Mem := Int → UInt8

/-- What the comparison function is given: the bytes of one element. -/
abbrev Elem (width : Nat) := Fin width → UInt8

def element (width : Nat) (mem : Mem) (p : Int) : Elem width := fun k => mem (p + (k : Nat))

def Inside (nel width : Nat) (p : Int) : Prop := 0 ≤ p ∧ p + width ≤ nel * width ∧ p % width = 0

instance (nel width : Nat) (p : Int) : Decidable (Inside nel width p) :=
  inferInstanceAs (Decidable (_ ∧ _ ∧ _))

def exchangeLoop : Nat → Int → Int → Mem → Mem
  | 0, _, _, mem => mem
  | n + 1, p, q, mem =>
    exchangeLoop n (p + 1) (q + 1) (update (update mem p (mem q)) q (mem p))

def exchange3Loop : Nat → Int → Int → Int → Mem → Mem
  | 0, _, _, _, mem => mem
  | n + 1, p, q, r, mem =>
    let mem' := update mem p (mem r)
    let mem' := update mem' r (mem' q)
    exchange3Loop n (p + 1) (q + 1) (r + 1) (update mem' q (mem p))

section

variable (nel width : Nat) (compar : Elem width → Elem width → Int)

/-- A call of the comparison function; it fails outside the array. -/
def qcompar (mem : Mem) (p q : Int) : Option Int :=
  if Inside nel width p ∧ Inside nel width q then
    some (compar (element width mem p) (element width mem q))
  else none

def qexchange (p q : Int) (mem : Mem) : Option Mem :=
  if Inside nel width p ∧ Inside nel width q then some (exchangeLoop width p q mem) else none

def q3exchange (p q r : Int) (mem : Mem) : Option Mem :=
  if Inside nel width p ∧ Inside nel width q ∧ Inside nel width r then
    some (exchange3Loop width p q r mem)
  else none

structure State where
  mem : Mem
  left : Int
  right : Int
  lefteq : Int
  righteq : Int

/-- Where the loops stand: the first one, the second one, or behind them. -/
inductive Label where
  | again | right | done
  deriving DecidableEq

def step : Label → State → Option (Label × State)
  | .again, s =>
    if s.left < s.lefteq then
      (qcompar nel width compar s.mem s.left s.lefteq).bind fun cmp =>
        if cmp < 0 then some (.again, { s with left := s.left + width })
        else if cmp = 0 then
          (qexchange nel width s.left (s.lefteq - width) s.mem).map fun mem =>
            (.again, { s with mem := mem, lefteq := s.lefteq - width })
        else some (.right, s)
    else some (.right, s)
  | .right, s =>
    if s.righteq < s.right then
      (qcompar nel width compar s.mem s.right s.righteq).bind fun cmp =>
        if cmp < 0 then
          if s.left < s.lefteq then
            (qexchange nel width s.left s.right s.mem).map fun mem =>
              (.again, { s with mem := mem, left := s.left + width, right := s.right - width })
          else
            (q3exchange nel width s.left (s.righteq + width) s.right s.mem).map fun mem =>
              (.right, { s with
                mem := mem
                righteq := s.righteq + width
                lefteq := s.lefteq + width
                left := s.lefteq + width })
        else if cmp = 0 then
          (qexchange nel width s.right (s.righteq + width) s.mem).map fun mem =>
            (.right, { s with mem := mem, righteq := s.righteq + width })
        else some (.right, { s with right := s.right - width })
    else if s.left < s.lefteq then
      (q3exchange nel width s.right (s.lefteq - width) s.left s.mem).map fun mem =>
        (.again, { s with
          mem := mem
          lefteq := s.lefteq - width
          righteq := s.righteq - width
          right := s.righteq - width })
    else some (.done, s)
  | .done, s => some (.done, s)

def part : Nat → Label → State → Option State
  | 0, _, _ => none
  | fuel + 1, label, s =>
    if label = .done then some s
    else (step nel width compar label s).bind fun next => part fuel next.1 next.2

def bsearchLoop (key : Elem width) (mem : Mem) (base : Int) (nmemb : Nat) : Option (Option Int) :=
  if nmemb = 0 then some none
  else
    let midPoint := base + width * (nmemb / 2 : Nat)
    if Inside nel width midPoint then
      let cmp := compar key (element width mem midPoint)
      if cmp = 0 then some (some midPoint)
      else if 0 ≤ cmp then bsearchLoop key mem (midPoint + width) ((nmemb - 1) / 2)
      else bsearchLoop key mem base (nmemb / 2)
    else none
termination_by nmemb
decreasing_by all_goals omega

def bsearch (key : Elem width) (mem : Mem) : Option (Option Int) :=
  bsearchLoop nel width compar key mem 0 nel

end

/-- A comparison function that orders all elements; unequal ones may be equal for it. -/
structure TotalPreorder {width : Nat} (compar : Elem width → Elem width → Int) : Prop where
  swap : ∀ x y, compar x y < 0 ↔ 0 < compar y x
  trans : ∀ x y z, compar x y ≤ 0 → compar y z ≤ 0 → compar x z ≤ 0

/-! ## Exchanges -/

variable {width nel : Nat}

def value (mem : Mem) (width : Nat) (i : Int) : Elem width := element width mem (i * width)

section

variable (positive : 0 < width)
include positive

theorem le_iff (i j : Int) : i * width ≤ j * width ↔ i ≤ j :=
  Int.mul_le_mul_right (by omega)

theorem inside_iff (i : Int) : Inside nel width (i * width) ↔ 0 ≤ i ∧ i < nel := by
  have low := le_iff positive 0 i
  have high := le_iff positive (i + 1) nel
  rw [Int.add_mul, Int.one_mul] at high
  rw [Inside, Int.mul_emod_left]
  omega

theorem apart (i j : Int) :
    i * width = j * width ∨ i * width + width ≤ j * width ∨ j * width + width ≤ i * width := by
  have less := le_iff positive (i + 1) j
  have more := le_iff positive (j + 1) i
  rw [Int.add_mul, Int.one_mul] at less more
  rcases Int.lt_trichotomy i j with before | rfl | behind
  · exact .inr (.inl (less.mpr before))
  · exact .inl rfl
  · exact .inr (.inr (more.mpr behind))

end

/-! ## The order -/

namespace TotalPreorder

variable {compar : Elem width → Elem width → Int} (order : TotalPreorder compar)
include order

theorem congr {y z : Elem width} (same : compar y z = 0) (x : Elem width) :
    (compar x y < 0 ↔ compar x z < 0) ∧ (compar x y = 0 ↔ compar x z = 0) := by
  have signs := And.intro (order.swap x y) (order.swap y x)
  have signs' := And.intro (order.swap x z) (order.swap z x)
  have signs'' := And.intro (order.swap y z) (order.swap z y)
  have up := order.trans x y z
  have down := order.trans x z y
  have up' := order.trans y z x
  have down' := order.trans z y x
  omega

theorem refl (x : Elem width) : compar x x = 0 := by
  have sign := order.swap x x
  omega

theorem le_of_sides {x y z : Elem width} (first : compar x z ≤ 0) (second : 0 ≤ compar y z) :
    compar x y ≤ 0 := by
  have sign := order.swap y z
  have through := order.trans x z y first
  have sign' := order.swap z y
  omega

end TotalPreorder

/-- Only the elements from `a1` to `a2` have been moved, among each other. -/
def Permuted (width : Nat) (a1 a2 : Int) (mem mem' : Mem) : Prop :=
  ∃ σ : Equiv.Perm Int, (∀ i, i < a1 ∨ a2 < i → σ i = i) ∧
    ∀ i, value mem' width i = value mem width (σ i)

namespace Permuted

variable {a1 a2 : Int} {mem mem' mem'' : Mem}

theorem refl : Permuted width a1 a2 mem mem := ⟨1, fun _ _ => rfl, fun _ => rfl⟩

theorem trans (first : Permuted width a1 a2 mem mem') (second : Permuted width a1 a2 mem' mem'') :
    Permuted width a1 a2 mem mem'' := by
  obtain ⟨σ, outside, moved⟩ := first
  obtain ⟨τ, outside', moved'⟩ := second
  refine ⟨σ * τ, fun i out => ?_, fun i => (moved' i).trans (moved _)⟩
  rw [Equiv.Perm.mul_apply, outside' i out, outside i out]

theorem mono (permuted : Permuted width a1 a2 mem mem') {b1 b2 : Int} (low : b1 ≤ a1)
    (high : a2 ≤ b2) : Permuted width b1 b2 mem mem' := by
  obtain ⟨σ, outside, moved⟩ := permuted
  exact ⟨σ, fun i out => outside i (by omega), moved⟩

theorem same (permuted : Permuted width a1 a2 mem mem') {i : Int} (out : i < a1 ∨ a2 < i) :
    value mem' width i = value mem width i := by
  obtain ⟨σ, outside, moved⟩ := permuted
  rw [moved, outside i out]

theorem all (permuted : Permuted width a1 a2 mem mem') {holds : Elem width → Prop}
    (before : ∀ i, a1 ≤ i → i ≤ a2 → holds (value mem width i)) {i : Int} (low : a1 ≤ i)
    (high : i ≤ a2) : holds (value mem' width i) := by
  obtain ⟨σ, outside, moved⟩ := permuted
  have stays : ¬ (σ i < a1 ∨ a2 < σ i) := fun out => by
    have same := σ.injective (outside (σ i) out)
    omega
  rw [moved]
  exact before _ (by omega) (by omega)

end Permuted

/-! ## A turn -/

structure Marks where
  left : Int
  right : Int
  lefteq : Int
  righteq : Int

def Marks.state (m : Marks) (width : Nat) (mem : Mem) : State :=
  ⟨mem, m.left * width, m.right * width, m.lefteq * width, m.righteq * width⟩

/-- Smaller elements are to the left, larger ones to the right and equal ones in the middle; what
is between has not been looked at. -/
structure Parted (compar : Elem width → Elem width → Int) (pivot : Elem width) (a1 a2 : Int)
    (before mem : Mem) (m : Marks) : Prop where
  low : a1 ≤ m.left
  start : m.left ≤ m.lefteq
  middle : m.lefteq ≤ m.righteq
  stop : m.righteq ≤ m.right
  high : m.right ≤ a2
  smaller : ∀ i, a1 ≤ i → i < m.left → compar (value mem width i) pivot < 0
  equal : ∀ i, m.lefteq ≤ i → i ≤ m.righteq → compar (value mem width i) pivot = 0
  larger : ∀ i, m.right < i → i ≤ a2 → 0 < compar (value mem width i) pivot
  permuted : Permuted width a1 a2 before mem

/-- The second loop starts when there is a larger element to the left or none at all. -/
def Ready (compar : Elem width → Elem width → Int) (pivot : Elem width) (mem : Mem) (m : Marks) :
    Label → Prop
  | .again => True
  | .right => m.left < m.lefteq → 0 < compar (value mem width m.left) pivot
  | .done => m.left = m.lefteq ∧ m.right = m.righteq

def Marks.rest (m : Marks) : Label → Nat
  | .again => 2 * (m.lefteq - m.left + (m.right - m.righteq)).toNat + 2
  | .right => 2 * (m.lefteq - m.left + (m.right - m.righteq)).toNat + 1
  | .done => 0

abbrev Turned (nel : Nat) (compar : Elem width → Elem width → Int) (pivot : Elem width) (a1 a2 : Int)
    (before mem : Mem) (m : Marks) (label : Label) : Prop :=
  ∃ label' mem' m',
    step nel width compar label (m.state width mem) = some (label', Marks.state m' width mem') ∧
      Parted compar pivot a1 a2 before mem' m' ∧ Ready compar pivot mem' m' label' ∧
      m'.rest label' < m.rest label

section

variable (positive : 0 < width) {i j l : Int} (first : 0 ≤ i ∧ i < nel) (second : 0 ≤ j ∧ j < nel)
include positive first second

end

theorem next (i : Int) : i * width + width = (i + 1) * width := by ring

theorem previous (i : Int) : i * width - width = (i - 1) * width := by ring

section

variable {compar : Elem width → Elem width → Int} {pivot : Elem width} {a1 a2 : Int}
  {before mem : Mem} {m : Marks} (order : TotalPreorder compar) (positive : 0 < width)
  (low : 0 ≤ a1) (high : a2 < nel) (parted : Parted compar pivot a1 a2 before mem m)
include order positive low high parted

end

def Sorted (compar : Elem width → Elem width → Int) (a1 a2 : Int) (mem : Mem) : Prop :=
  ∀ i j, a1 ≤ i → i ≤ j → j ≤ a2 → compar (value mem width i) (value mem width j) ≤ 0

variable {compar : Elem width → Elem width → Int}

/-- Where both sides are sorted, the whole is. -/
theorem Parted.sorted {pivot : Elem width} {a1 a2 : Int} {before mem mem' mem'' : Mem} {m : Marks}
    (order : TotalPreorder compar) (parted : Parted compar pivot a1 a2 before mem m)
    (done : Ready compar pivot mem m .done) (left : Permuted width a1 (m.lefteq - 1) mem mem')
    (sorted : Sorted compar a1 (m.lefteq - 1) mem')
    (right : Permuted width (m.righteq + 1) a2 mem' mem'')
    (sorted' : Sorted compar (m.righteq + 1) a2 mem'') : Sorted compar a1 a2 mem'' := by
  obtain ⟨low, start, middle, stop, high, smaller, equal, larger, -⟩ := parted
  obtain ⟨both, both'⟩ := done
  have below : ∀ i, a1 ≤ i → i ≤ m.righteq → compar (value mem'' width i) pivot ≤ 0 := by
    intro i above inside
    rw [right.same (.inl (by omega))]
    have wider : Permuted width a1 m.righteq mem mem' := left.mono le_rfl (by omega)
    refine @Permuted.all _ _ _ _ _ wider (compar · pivot ≤ 0) (fun j above' inside' => ?_) i above
      inside
    rcases lt_or_ge j m.left with less | more
    · exact (smaller j above' less).le
    · exact (equal j (by omega) inside').le
  have above : ∀ i, m.lefteq ≤ i → i ≤ a2 → 0 ≤ compar (value mem'' width i) pivot := by
    intro i below' inside
    have wider : Permuted width m.lefteq a2 mem' mem'' := right.mono (by omega) le_rfl
    refine @Permuted.all _ _ _ _ _ wider (0 ≤ compar · pivot) (fun j below' inside' => ?_) i below'
      inside
    rw [left.same (.inr (by omega))]
    rcases lt_or_ge m.right j with more | less
    · exact (larger j more inside').le
    · exact (equal j below' (by omega)).ge
  intro i j first ordered last
  by_cases early : j < m.lefteq
  · rw [right.same (.inl (by omega)), right.same (.inl (by omega))]
    exact sorted i j first ordered (by omega)
  by_cases late : m.righteq < i
  · exact sorted' i j late ordered last
  exact order.le_of_sides (below i first (by omega)) (above j (by omega) last)

/-- The answer to a search among the elements from `b` to before `e`. -/
def Found (compar : Elem width → Elem width → Int) (key : Elem width) (mem : Mem) (b e : Int) :
    Option Int → Prop
  | some p => ∃ i, b ≤ i ∧ i < e ∧ p = i * width ∧ compar key (value mem width i) = 0
  | none => ∀ i, b ≤ i → i < e → compar key (value mem width i) ≠ 0

/-- By induction on the number of elements that are left. -/
theorem bsearchLoop_spec (order : TotalPreorder compar) (positive : 0 < width) {mem : Mem}
    (sorted : Sorted compar 0 (nel - 1) mem) (key : Elem width) (nmemb : Nat) {b : Int}
    (low : 0 ≤ b) (high : b + nmemb ≤ nel) :
    ∃ found, bsearchLoop nel width compar key mem (b * width) nmemb = some found ∧
      Found compar key mem b (b + nmemb) found := by
  induction nmemb using Nat.strong_induction_on generalizing b with
  | _ nmemb ih =>
    rw [bsearchLoop]
    by_cases empty : nmemb = 0
    · exact ⟨none, if_pos empty, fun i above below => by omega⟩
    · obtain ⟨half, middle⟩ : ∃ half, half = nmemb / 2 := ⟨_, rfl⟩
      have place : b * width + width * (half : Nat) = (b + half) * width := by ring
      have inside := (@inside_iff width nel positive (b + half)).mpr ⟨by omega, by omega⟩
      have here : element width mem ((b + half) * width) = value mem width (b + half) := rfl
      simp only [← middle, place, if_neg empty, if_pos inside, next, here]
      split
      next same => exact ⟨_, rfl, b + half, by omega, by omega, rfl, same⟩
      next differs =>
        split
        next more =>
          obtain ⟨found, ran, answer⟩ := @ih ((nmemb - 1) / 2) (by omega) (b + half + 1)
            (by omega) (by omega)
          refine ⟨found, ran, ?_⟩
          cases found with
          | some p =>
            obtain ⟨i, above, below, here⟩ := answer
            exact ⟨i, by omega, by omega, here⟩
          | none =>
            intro i above below same
            rcases Int.lt_or_le (b + half) i with right | left
            · exact answer i right (by omega) same
            · have ordered := sorted i (b + half) (by omega) left (by omega)
              have least := order.trans key _ _ same.le ordered
              omega
        next less =>
          obtain ⟨found, ran, answer⟩ := @ih half (by omega) b low (by omega)
          refine ⟨found, ran, ?_⟩
          cases found with
          | some p =>
            obtain ⟨i, above, below, here⟩ := answer
            exact ⟨i, above, by omega, here⟩
          | none =>
            intro i above below same
            rcases Int.lt_or_le i (b + half) with left | right
            · exact answer i above left same
            · have ordered := sorted (b + half) i (by omega) right (by omega)
              have largest := order.le_of_sides ordered same.ge
              have sign := order.swap key (value mem width (b + half))
              omega

/-- `bsearch` ends without an access outside the array, and answers with an element equal to the
key just if there is one. -/
theorem bsearch_finds (order : TotalPreorder compar) (positive : 0 < width) {mem : Mem}
    (sorted : Sorted compar 0 (nel - 1) mem) (key : Elem width) :
    ∃ found, bsearch nel width compar key mem = some found ∧
      Found compar key mem 0 nel found := by
  have searched := bsearchLoop_spec order positive sorted key nel le_rfl (by omega)
  rwa [Int.zero_mul, Int.zero_add] at searched

theorem bsearch_finds_bytes : ∃ found,
    bsearch 3 1 (fun x y => (x 0).toNat - (y 0).toNat) (fun _ => 2) (fun p => .ofInt p) =
      some found ∧
      Found (fun x y : Elem 1 => (x 0).toNat - (y 0).toNat) (fun _ => 2) (fun p => .ofInt p) 0 3
        found := by
  refine bsearch_finds ⟨fun _ _ => by omega, fun _ _ _ _ _ => by omega⟩ (by decide)
    (fun i j low ordered high => ?_) _
  obtain rfl | rfl | rfl : i = 0 ∨ i = 1 ∨ i = 2 := by omega
  all_goals obtain rfl | rfl | rfl : j = 0 ∨ j = 1 ∨ j = 2 := by omega
  all_goals first | omega | decide

end AckFormal.Ansi.Sorting
