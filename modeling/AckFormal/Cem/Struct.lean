import Mathlib.Data.Nat.GCD.Basic
import Mathlib.Data.List.Basic
import Mathlib.Order.Basic

/-!
# The layout of a struct

`add_sel` places the members of a struct one after the other.  Bit-fields are packed into units of
the size of an `int` by `add_field`, which keeps its place between the calls.
-/

namespace AckFormal.Cem.Struct

def gcd (m n : Nat) : Nat := if n = 0 then m else gcd n (m % n)
termination_by n
decreasing_by exact Nat.mod_lt m (Nat.pos_of_ne_zero (by assumption))

def lcm (m n : Nat) : Nat := m * (n / gcd m n)

def align (pos al : Nat) : Nat := (pos + al - 1) / al * al

/-- The target: `word_size`, which is `int_size`, and `int_align`; and `options['r']`. -/
structure Target where
  wordSize : Nat
  intAlign : Nat
  right : Bool

/-- The types that a bit-field can have, by `tp_fund`, and the others. -/
inductive Fund where
  | char
  | short
  | enum
  | int
  | long
  | lnglng
  | other (name : String)
  deriving DecidableEq

inductive Message where
  | illegalWidth
  | nonPortable
  | doesNotFit (fund : Fund)
  | cannotBe (fund : Fund)

/-- A member declaration: its size and alignment, or the type and the width of a bit-field and
whether it has no name.  Another struct can be declared in between; if it has bit-fields, they leave
these statics. -/
inductive Decl where
  | ordinary (size al : Nat)
  | field (fund : Fund) (size : Nat) (width : Int) (anon : Bool)
  | another (statics : Option (Bool × Int × Int))

/-- The type of a member in the member list: a bit-field with the bits in its type, its width and its
shift, or `error_type`. -/
inductive Kind where
  | ordinary (size al : Nat)
  | field (bits width shift : Int)
  | wrong
  deriving DecidableEq

structure Sdef where
  offset : Int
  kind : Kind
  deriving DecidableEq

/-- The struct that is declared, with its members from the last one on, and the statics of
`add_field`; `current` says whether `current_struct` is this struct. -/
structure Layout where
  size : Nat
  tpAlign : Nat
  members : List Sdef
  current : Bool
  fieldBusy : Bool
  fieldOffset : Int
  bitsDeclared : Int

/-- An `arith` that is assigned to an `int`. -/
@[irreducible] def toInt (n : Nat) : Int := (n + 0x80000000) % 0x100000000 - 0x80000000

def newUnit (t : Target) (s : Layout) : Layout :=
  { s with
    fieldOffset := toInt (align s.size t.intAlign)
    size := align s.size t.intAlign + t.wordSize
    tpAlign := lcm s.tpAlign t.intAlign }

/-- The start of `add_field`: another struct has left its place. -/
def enter (s : Layout) : Layout :=
  if s.current then s else { s with fieldBusy := false, current := true }

def begin (t : Target) (s : Layout) : Layout :=
  if s.fieldBusy then s else { newUnit t s with bitsDeclared := 0, fieldBusy := true }

def advance (t : Target) (s : Layout) (bits width : Int) : Layout :=
  if width > bits - s.bitsDeclared then { newUnit t s with bitsDeclared := width }
  else if width = 0 then { s with bitsDeclared := bits + 1 }
  else { s with bitsDeclared := s.bitsDeclared + width }

/-- The checks of `add_field`, and whether they accept the field. -/
def check (t : Target) (fund : Fund) (size : Nat) (width : Int) (anon : Bool) :
    Bool × List Message :=
  if width < 0 ∨ (width = 0 ∧ ¬ anon) ∨ width > 8 * size then (false, [.illegalWidth])
  else
    match fund with
    | .other name => (false, [.cannotBe (.other name)])
    | fund =>
      let strict := if fund = .int then [] else [.nonPortable]
      if size > t.wordSize then (false, strict ++ [.doesNotFit fund]) else (true, strict)

/-- `add_field`: the place, the address and the type of the selector, and the messages. -/
def addField (t : Target) (s : Layout) (fund : Fund) (size : Nat) (width : Int) (anon : Bool) :
    Layout × Kind × List Message :=
  let bits : Int := 8 * size
  let s := enter s
  let (accepted, messages) := check t fund size width anon
  if accepted then
    let s := advance t (begin t s) bits width
    let shift := if t.right then s.bitsDeclared - width else bits - s.bitsDeclared
    (s, .field bits width shift, messages)
  else (s, .wrong, messages)

def addSel (t : Target) (s : Layout) : Decl → Layout × List Message
  | .ordinary size al =>
    let offset := align s.size al
    ({ s with
      fieldBusy := false
      members := ⟨offset, .ordinary size al⟩ :: s.members
      size := offset + size
      tpAlign := lcm s.tpAlign al }, [])
  | .field fund size width anon =>
    let (s, kind, messages) := addField t s fund size width anon
    ({ s with members := ⟨s.fieldOffset, kind⟩ :: s.members }, messages)
  | .another none => ({ s with fieldBusy := false }, [])
  | .another (some (busy, offset, declared)) =>
    ({ s with
      current := false
      fieldBusy := busy
      fieldOffset := offset
      bitsDeclared := declared }, [])

def run (t : Target) (s : Layout) : List Decl → Layout
  | [] => s
  | d :: rest => run t (addSel t s d).1 rest

def Layout.tpSize (s : Layout) : Nat := align s.size s.tpAlign

/-! ## What a layout is for -/

namespace Sdef

def bits (m : Sdef) : Int :=
  match m.kind with
  | .field bits _ _ => bits
  | _ => 0

def width (m : Sdef) : Int :=
  match m.kind with
  | .field _ width _ => width
  | _ => 0

def shift (m : Sdef) : Int :=
  match m.kind with
  | .field _ _ shift => shift
  | _ => 0

def Packed (m : Sdef) : Prop := 0 < m.width

def Zero (m : Sdef) : Prop :=
  match m.kind with
  | .field _ width _ => width = 0
  | _ => False

def Occupies (m : Sdef) : Prop :=
  match m.kind with
  | .ordinary _ _ => True
  | .field _ width _ => 0 < width
  | .wrong => False

def stop (t : Target) (m : Sdef) : Int :=
  match m.kind with
  | .ordinary size _ => m.offset + size
  | .field _ _ _ => m.offset + t.wordSize
  | .wrong => 0

def start (t : Target) (m : Sdef) : Int :=
  if t.right then m.shift else m.bits - m.shift - m.width

/-- Two members have no bit in common: their bytes are apart, or they are fields of one word with
bits of their own. -/
def Apart (t : Target) (a b : Sdef) : Prop :=
  a.Occupies → b.Occupies →
    a.stop t ≤ b.offset ∨ b.stop t ≤ a.offset ∨
      (a.Packed ∧ b.Packed ∧ a.offset = b.offset ∧
        (a.shift + a.width ≤ b.shift ∨ b.shift + b.width ≤ a.shift))

end Sdef

/-- Whether the last bit-field, if there is one, has no width; the last member comes first. -/
def zeroPending : List Sdef → Prop
  | [] => False
  | m :: rest => m.Zero ∨ (¬ m.Packed ∧ zeroPending rest)

def StartsUnit (t : Target) (m : Sdef) (before : List Sdef) : Prop :=
  m.start t = 0 ∧ ∀ e ∈ before, e.Packed → e.offset ≠ m.offset

structure Sound (t : Target) (s : Layout) : Prop where
  /-- The offset of an ordinary member is a multiple of its alignment. -/
  aligned : ∀ m ∈ s.members, ∀ size al, m.kind = .ordinary size al → (al : Int) ∣ m.offset
  /-- A bit-field lies inside its word and inside the struct. -/
  inside : ∀ m ∈ s.members, m.Packed →
    (0 ≤ m.shift ∧ m.shift + m.width ≤ 8 * t.wordSize) ∧
      0 ≤ m.offset ∧ m.offset + t.wordSize ≤ s.tpSize
  /-- The alignment of the struct is a multiple of those of its members. -/
  alignment : ∀ m ∈ s.members,
    (∀ size al, m.kind = .ordinary size al → al ∣ s.tpAlign) ∧ (m.Packed → t.intAlign ∣ s.tpAlign)
  /-- No two members have a bit in common. -/
  apart : s.members.Pairwise (Sdef.Apart t)
  /-- The first field after one of width zero starts a new unit. -/
  unit : ∀ m before, m :: before <:+ s.members → m.Packed → zeroPending before →
    StartsUnit t m before

/-- A declaration puts a field into the unit that is there already. -/
def Joins (t : Target) (s : Layout) : Decl → Prop
  | .ordinary _ _ => False
  | .field fund size width anon =>
    (check t fund size width anon).1 = true ∧ 0 < width ∧ s.current = true ∧
      s.fieldBusy = true ∧ width ≤ 8 * size - s.bitsDeclared
  | .another _ => False

/-- When a declaration does no harm: a field that joins a unit does not follow one of width zero,
unless that took a new unit; and, where fields are adjusted at the left, for each field of the unit
whose type is narrower by some number of bits, the widths from that field through the new one add up
to at most this number, or those in between to at least this number. -/
def Regular (t : Target) (s : Layout) : Decl → Prop
  | .ordinary _ _ => True
  | .field fund size width anon =>
    Joins t s (.field fund size width anon) →
      (zeroPending s.members → s.bitsDeclared = 0) ∧
      (t.right = false → ∀ f ∈ s.members, f.Packed → f.offset = s.fieldOffset →
        let between := s.bitsDeclared - (f.start t + f.width)
        let wider := 8 * size - f.bits
        f.width + between + width ≤ wider ∨ wider ≤ between)
  | .another _ => True

def Opens (t : Target) (s : Layout) (fund : Fund) (size : Nat) (width : Int) (anon : Bool) : Prop :=
  (check t fund size width anon).1 = true ∧
    ¬ (s.current = true ∧ s.fieldBusy = true ∧ width ≤ 8 * size - s.bitsDeclared)

/-- An `arith` has room for the sizes and an `int` for the alignment of the struct. -/
def InRange (t : Target) (s : Layout) : Decl → Prop
  | .ordinary size al => s.size + al + size < 2 ^ 63 ∧ lcm s.tpAlign al < 2 ^ 31
  | .field fund size width anon => Opens t s fund size width anon →
    s.size + t.intAlign + t.wordSize < 2 ^ 63 ∧ lcm s.tpAlign t.intAlign < 2 ^ 31
  | .another _ => True

/-- An `int` has room for the offset of the unit, where a field with bits is put into one: the unit
is at the end of the struct. -/
def Reached (t : Target) (s : Layout) : Decl → Prop
  | .ordinary _ _ => True
  | .field fund size width anon => (check t fund size width anon).1 = true → 0 < width →
    (Joins t s (.field fund size width anon) → s.size - t.wordSize < 2 ^ 31) ∧
      (Opens t s fund size width anon → align s.size t.intAlign < 2 ^ 31)
  | .another _ => True

/-- What the declarations are made of: sizes and alignments of types. -/
def Decl.Proper : Decl → Prop
  | .ordinary _ al => 0 < al
  | .field _ _ _ _ => True
  | .another _ => True

/-- A struct without members; the statics may be those of another one. -/
structure Fresh (s : Layout) : Prop where
  size : s.size = 0
  align : 0 < s.tpAlign
  members : s.members = []
  other : s.current = false

/-! ## Alignments -/

theorem gcd_eq (m n : Nat) : gcd m n = Nat.gcd m n := by
  induction m, n using gcd.induct with
  | case1 m =>
    rw [gcd, if_pos rfl, Nat.gcd_zero_right]
  | case2 m n nonzero ih =>
    rw [gcd, if_neg nonzero, ih, Nat.gcd_comm n, ← Nat.gcd_rec, Nat.gcd_comm]

theorem lcm_eq (m n : Nat) : lcm m n = Nat.lcm m n := by
  rw [lcm, gcd_eq, Nat.lcm_eq_mul_div, Nat.mul_div_assoc _ (Nat.gcd_dvd_right m n)]

theorem align_dvd (pos al : Nat) : al ∣ align pos al := Nat.dvd_mul_left _ _

theorem le_align {al : Nat} (pos : Nat) (positive : 0 < al) : pos ≤ align pos al := by
  have rest := Nat.mod_lt (pos + al - 1) positive
  have whole := Nat.div_add_mod (pos + al - 1) al
  rw [Nat.mul_comm] at whole
  unfold align
  omega

/-! ## What a declaration does -/

def shiftOf (t : Target) (bits width declared : Int) : Int :=
  if t.right then declared - width else bits - declared

structure InNewUnit (t : Target) (s : Layout) (bits width : Int) (s' : Layout) : Prop where
  size : s'.size = align s.size t.intAlign + t.wordSize
  tpAlign : s'.tpAlign = lcm s.tpAlign t.intAlign
  current : s'.current = true
  fieldBusy : s'.fieldBusy = true
  fieldOffset : s'.fieldOffset = toInt (align s.size t.intAlign)
  declared : 0 ≤ s'.bitsDeclared ∧ (0 < width → s'.bitsDeclared = width)
  members : s'.members =
    ⟨s'.fieldOffset, .field bits width (shiftOf t bits width s'.bitsDeclared)⟩ :: s.members

/-- The ways of a field through `add_field`: it is refused, joins the unit, closes the unit as a
field of width zero, or has a new unit. -/
inductive Way (t : Target) (s : Layout) (fund : Fund) (size : Nat) (width : Int) (anon : Bool)
    (s' : Layout) : Prop where
  | refused (offset : Int) (not : (check t fund size width anon).1 = false)
      (same : s' = { enter s with members := ⟨offset, .wrong⟩ :: s.members })
  | joined (joins : Joins t s (.field fund size width anon))
      (same : s' = { s with
        bitsDeclared := s.bitsDeclared + width
        members := ⟨s.fieldOffset,
          .field (8 * size) width (shiftOf t (8 * size) width (s.bitsDeclared + width))⟩ ::
          s.members })
  | closed (zero : width = 0) (current : s.current = true) (busy : s.fieldBusy = true)
      (room : s.bitsDeclared ≤ 8 * size)
      (same : s' = { s with
        bitsDeclared := 8 * size + 1
        members := ⟨s.fieldOffset,
          .field (8 * size) width (shiftOf t (8 * size) width (8 * size + 1))⟩ :: s.members })
  | fresh (nonneg : 0 ≤ width) (fits : width ≤ 8 * size ∧ size ≤ t.wordSize)
      (opens : Opens t s fund size width anon)
      (unit : InNewUnit t s (8 * size) width s')

variable {t : Target} {fund : Fund} {size : Nat} {width : Int} {anon : Bool} {s : Layout} {m : Sdef}

theorem check_bounds (accepted : (check t fund size width anon).1 = true) :
    0 ≤ width ∧ width ≤ 8 * size ∧ size ≤ t.wordSize := by
  unfold check at accepted
  split at accepted
  case isTrue => cases accepted
  case isFalse legal =>
    have small : ¬ size > t.wordSize := by
      intro large
      cases fund <;> simp [large] at accepted
    omega

theorem addField_refused (refused : (check t fund size width anon).1 = false) :
    (addField t s fund size width anon).1 = enter s ∧
      (addField t s fund size width anon).2.1 = .wrong := by
  unfold addField
  dsimp only
  rw [refused]
  exact ⟨rfl, rfl⟩

theorem addField_accepted (accepted : (check t fund size width anon).1 = true) :
    let s' := advance t (begin t (enter s)) (8 * size) width
    (addField t s fund size width anon).1 = s' ∧
      (addField t s fund size width anon).2.1 =
        .field (8 * size) width (shiftOf t (8 * size) width s'.bitsDeclared) := by
  unfold addField
  dsimp only
  rw [accepted]
  exact ⟨rfl, rfl⟩

theorem addSel_field (t : Target) (s : Layout) (fund : Fund) (size : Nat) (width : Int)
    (anon : Bool) :
    (addSel t s (.field fund size width anon)).1 =
      { (addField t s fund size width anon).1 with
        members := ⟨(addField t s fund size width anon).1.fieldOffset,
          (addField t s fund size width anon).2.1⟩ ::
          (addField t s fund size width anon).1.members } := rfl

theorem enter_members (s : Layout) : (enter s).members = s.members := by
  unfold enter
  split <;> rfl

theorem begin_fresh (apart : ¬ (s.current = true ∧ s.fieldBusy = true)) :
    begin t (enter s) = { newUnit t s with current := true, fieldBusy := true, bitsDeclared := 0 } := by
  unfold begin enter
  cases current : s.current with
  | false =>
    rfl
  | true =>
    rw [if_pos rfl, if_neg fun busy => apart ⟨current, busy⟩]
    rw [← current]
    rfl

theorem begin_busy (current : s.current = true) (busy : s.fieldBusy = true) :
    begin t (enter s) = s := by
  rw [begin, enter, if_pos current, if_pos busy]

/-- What declaring a bit-field does, case by case. -/
theorem addSel_way (t : Target) (s : Layout) (fund : Fund) (size : Nat) (width : Int) (anon : Bool) :
    Way t s fund size width anon (addSel t s (.field fund size width anon)).1 := by
  rw [addSel_field]
  cases accepted : (check t fund size width anon).1 with
  | false =>
    obtain ⟨place, kind⟩ := addField_refused (s := s) accepted
    rw [place, kind, enter_members]
    exact .refused _ accepted rfl
  | true =>
    obtain ⟨nonneg, narrow, small⟩ := check_bounds accepted
    obtain ⟨place, kind⟩ := addField_accepted (s := s) accepted
    rw [place, kind]
    by_cases there : s.current = true ∧ s.fieldBusy = true
    · rw [begin_busy there.1 there.2]
      unfold advance
      by_cases full : width > 8 * size - s.bitsDeclared
      · rw [if_pos full]
        refine .fresh nonneg ⟨narrow, small⟩ ⟨accepted, fun fits => ?_⟩
          ⟨rfl, rfl, there.1, there.2, rfl, ⟨nonneg, fun _ => rfl⟩, rfl⟩
        have room := fits.2.2
        omega
      · rw [if_neg full]
        by_cases zero : width = 0
        · rw [if_pos zero]
          exact .closed zero there.1 there.2 (by omega) rfl
        · rw [if_neg zero]
          exact .joined ⟨accepted, by omega, there.1, there.2, by omega⟩ rfl
    · have empty : ¬ width > 8 * size - 0 := by omega
      rw [begin_fresh there, advance, if_neg empty]
      have opens : Opens t s fund size width anon :=
        ⟨accepted, fun fits => there ⟨fits.1, fits.2.1⟩⟩
      by_cases zero : width = 0
      · rw [if_pos zero]
        exact .fresh nonneg ⟨narrow, small⟩ opens ⟨rfl, rfl, rfl, rfl, rfl,
          ⟨show 0 ≤ (8 * size + 1 : Int) by omega, fun some => absurd zero (Int.ne_of_gt some)⟩, rfl⟩
      · rw [if_neg zero]
        exact .fresh nonneg ⟨narrow, small⟩ opens ⟨rfl, rfl, rfl, rfl, rfl,
          ⟨show 0 ≤ 0 + width by omega, fun _ => Int.zero_add width⟩, rfl⟩

/-! ## What stays true -/

theorem toInt_of_lt {n : Nat} (small : n < 2 ^ 31) : toInt n = n := by
  unfold toInt
  omega

theorem toInt_le (n : Nat) : toInt n ≤ n := by
  unfold toInt
  omega

theorem toInt_neg {n : Nat} (large : 2 ^ 31 ≤ n) (bound : n < 2 ^ 32) : toInt n < 0 := by
  unfold toInt
  omega

/-- The unit that is in use: it is the end of the struct, and each member is before it or is a field
in it, of the bits that were declared. -/
structure InUse (t : Target) (s : Layout) : Prop where
  size : t.wordSize ≤ s.size
  offset : s.fieldOffset = toInt (s.size - t.wordSize)
  alignment : t.intAlign ∣ s.tpAlign
  declared : 0 ≤ s.bitsDeclared
  before : ∀ m ∈ s.members, m.stop t ≤ (s.size - t.wordSize : Nat) ∨
    (m.offset = s.fieldOffset ∧ (m.Occupies → m.Packed) ∧
      (m.Packed → m.start t + m.width ≤ s.bitsDeclared))

/-- The place of a member, whether its declaration did harm or not. -/
structure Placed (t : Target) (size tpAlign : Nat) (m : Sdef) : Prop where
  stop : m.stop t ≤ size
  ordinary : ∀ size al, m.kind = .ordinary size al → (al : Int) ∣ m.offset ∧ al ∣ tpAlign
  packed : m.Packed → t.intAlign ∣ tpAlign ∧ m.stop t = m.offset + t.wordSize ∧ 0 ≤ m.shift ∧
    m.shift + m.width ≤ 8 * t.wordSize ∧ 0 ≤ m.start t

structure Kept (t : Target) (s : Layout) : Prop where
  tpAlign : 0 < s.tpAlign
  placed : ∀ m ∈ s.members, Placed t s.size s.tpAlign m
  unit : s.current = true → s.fieldBusy = true → InUse t s

theorem not_packed_wrong (offset : Int) : ¬ (Sdef.mk offset .wrong).Packed := fun packed =>
  Int.lt_irrefl 0 packed

theorem not_packed_ordinary (offset : Int) (size al : Nat) :
    ¬ (Sdef.mk offset (.ordinary size al)).Packed := fun packed => Int.lt_irrefl 0 packed

theorem start_shiftOf (t : Target) (offset : Int) (bits width declared : Int) :
    (Sdef.mk offset (.field bits width (shiftOf t bits width declared))).start t =
      declared - width := by
  unfold Sdef.start shiftOf
  cases t.right with
  | true => rfl
  | false =>
    change bits - (bits - declared) - width = declared - width
    omega

theorem shiftOf_bounds (t : Target) {bits declared : Int} (start : width ≤ declared)
    (fits : declared ≤ bits) :
    0 ≤ shiftOf t bits width declared ∧ shiftOf t bits width declared + width ≤ bits := by
  unfold shiftOf
  cases t.right with
  | true =>
    omega
  | false =>
    omega

theorem dvd_lcm (m n : Nat) : m ∣ lcm m n ∧ n ∣ lcm m n := by
  rw [lcm_eq]
  exact ⟨Nat.dvd_lcm_left _ _, Nat.dvd_lcm_right _ _⟩

theorem lcm_pos {m n : Nat} (left : 0 < m) (right : 0 < n) : 0 < lcm m n := by
  rw [lcm_eq]
  exact Nat.lcm_pos left right

namespace Placed

variable {t : Target} {size tpAlign : Nat}

theorem mono {m : Sdef} {size' tpAlign' : Nat} (placed : Placed t size tpAlign m)
    (larger : size ≤ size') (factor : tpAlign ∣ tpAlign') : Placed t size' tpAlign' m where
  stop := Int.le_trans placed.stop (Int.ofNat_le.mpr larger)
  ordinary size al kind :=
    have ⟨offset, divides⟩ := placed.ordinary size al kind
    ⟨offset, divides.trans factor⟩
  packed packed :=
    have ⟨divides, rest⟩ := placed.packed packed
    ⟨divides.trans factor, rest⟩

theorem wrong (offset : Int) : Placed t size tpAlign ⟨offset, .wrong⟩ :=
  ⟨Int.natCast_nonneg size, fun _ _ kind => Kind.noConfusion kind,
    fun packed => absurd packed (not_packed_wrong _)⟩

end Placed

namespace Kept

variable {t : Target} {s : Layout}

variable (kept : Kept t s)
include kept

theorem ordinary {size al : Nat} (positive : 0 < al) :
    Kept t (addSel t s (.ordinary size al)).1 where
  tpAlign := lcm_pos kept.tpAlign positive
  placed := by
    refine List.forall_mem_cons.mpr ⟨⟨Int.le_refl _, fun size' al' kind => ?_, fun packed =>
      absurd packed (not_packed_ordinary _ _ _)⟩, fun m member => ?_⟩
    · cases kind
      exact ⟨Int.natCast_dvd_natCast.mpr (align_dvd s.size al), (dvd_lcm _ al).2⟩
    · exact (kept.placed m member).mono ((le_align s.size positive).trans (Nat.le_add_right _ _))
        (dvd_lcm _ al).1
  unit := fun _ busy => Bool.noConfusion busy

theorem refused (offset : Int) :
    Kept t { enter s with members := ⟨offset, .wrong⟩ :: s.members } := by
  cases there : s.current with
  | false =>
    rw [enter, there, if_neg Bool.false_ne_true]
    exact ⟨kept.tpAlign, List.forall_mem_cons.mpr ⟨.wrong offset, kept.placed⟩,
      fun _ busy => Bool.noConfusion busy⟩
  | true =>
    rw [enter, if_pos there]
    refine ⟨kept.tpAlign, List.forall_mem_cons.mpr ⟨.wrong offset, kept.placed⟩,
      fun current busy => ?_⟩
    obtain ⟨size, offset, alignment, declared, before⟩ := kept.unit current busy
    exact ⟨size, offset, alignment, declared,
      List.forall_mem_cons.mpr ⟨.inl (Int.natCast_nonneg _), before⟩⟩

theorem placeField (used : InUse t s) {bits width declared : Int}
    (later : s.bitsDeclared ≤ declared)
    (some : 0 < width → width ≤ declared ∧ declared ≤ bits ∧ bits ≤ 8 * t.wordSize) :
    Kept t { s with
      bitsDeclared := declared
      members := ⟨s.fieldOffset, .field bits width (shiftOf t bits width declared)⟩ ::
        s.members } := by
  have start := start_shiftOf t s.fieldOffset bits width declared
  have inside : s.fieldOffset + t.wordSize ≤ s.size := by
    have size := used.size
    have place := toInt_le (s.size - t.wordSize)
    rw [← used.offset] at place
    omega
  refine ⟨kept.tpAlign, List.forall_mem_cons.mpr ⟨⟨inside,
    fun size al kind => Kind.noConfusion kind, fun packed => ?_⟩, kept.placed⟩, fun _ _ =>
    ⟨used.size, used.offset, used.alignment, Int.le_trans used.declared later, List.forall_mem_cons.mpr
      ⟨.inr ⟨rfl, fun occupies => occupies, fun _ => ?_⟩, fun m member => ?_⟩⟩⟩
  · obtain ⟨before, fits, small⟩ := some packed
    obtain ⟨low, high⟩ := shiftOf_bounds t before fits
    exact ⟨used.alignment, rfl, low, Int.le_trans high small, start ▸ Int.sub_nonneg_of_le before⟩
  · rw [start]
    exact Int.le_of_eq (Int.sub_add_cancel declared width)
  · exact (used.before m member).imp_right fun ⟨offset, kind, bounds⟩ =>
      ⟨offset, kind, fun packed => Int.le_trans (bounds packed) later⟩

theorem extended (positive : 0 < t.intAlign) :
    let s' := { newUnit t s with current := true, fieldBusy := true, bitsDeclared := 0 }
    Kept t s' ∧ InUse t s' := by
  have larger := le_align s.size positive
  have used : InUse t { newUnit t s with current := true, fieldBusy := true, bitsDeclared := 0 } :=
    ⟨Nat.le_add_left _ _, (congrArg toInt (Nat.add_sub_cancel (align s.size t.intAlign) t.wordSize)).symm,
      (dvd_lcm _ _).2,
      Int.le_refl 0, fun m member => .inl (by
        have stop := (kept.placed m member).stop
        change m.stop t ≤ (align s.size t.intAlign + t.wordSize - t.wordSize : Nat)
        omega)⟩
  exact ⟨⟨lcm_pos kept.tpAlign positive, fun m member =>
    (kept.placed m member).mono (larger.trans (Nat.le_add_right _ _)) (dvd_lcm _ _).1,
    fun _ _ => used⟩, used⟩

theorem fresh (positive : 0 < t.intAlign) {bits width : Int} {s' : Layout}
    (unit : InNewUnit t s bits width s') (fits : width ≤ bits)
    (small : bits ≤ 8 * t.wordSize) : Kept t s' := by
  obtain ⟨kept', used⟩ := kept.extended positive
  obtain ⟨size, tpAlign, members, current, fieldBusy, fieldOffset, declared⟩ := s'
  obtain ⟨rfl, rfl, rfl, rfl, place, ⟨low, exactly⟩, list⟩ := unit
  dsimp only at place list
  subst place list
  refine kept'.placeField used low fun some => ?_
  have first : declared = width := exactly some
  rw [first]
  exact ⟨Int.le_refl width, fits, small⟩

theorem another (statics : Option (Bool × Int × Int)) :
    Kept t (addSel t s (.another statics)).1 := by
  cases statics with
  | none => exact { kept with unit := fun _ busy => absurd busy Bool.false_ne_true }
  | some statics => exact { kept with unit := fun current => absurd current Bool.false_ne_true }

theorem addSel (positive : 0 < t.intAlign) {d : Decl} (proper : d.Proper) :
    Kept t (Struct.addSel t s d).1 := by
  cases d with
  | ordinary size al => exact kept.ordinary proper
  | field fund size width anon =>
    cases addSel_way t s fund size width anon with
    | refused offset not same =>
      rw [same]
      exact kept.refused offset
    | joined joins same =>
      obtain ⟨accepted, some, current, busy, room⟩ := joins
      obtain ⟨-, -, small⟩ := check_bounds accepted
      have used := kept.unit current busy
      have declared := used.declared
      rw [same]
      exact kept.placeField used (by omega) fun _ => by omega
    | closed zero current busy room same =>
      rw [same]
      exact kept.placeField (kept.unit current busy) (by omega) fun some => by omega
    | fresh nonneg fits opens unit =>
      exact kept.fresh positive unit fits.1 (by omega)
  | another statics => exact kept.another statics

end Kept

/-! ## What a regular declaration keeps -/

/-- The fields are behind the start of the struct, the members have no bit in common, and a field
after one of width zero starts a unit. -/
structure Good (t : Target) (members : List Sdef) : Prop where
  offset : ∀ m ∈ members, m.Packed → 0 ≤ m.offset
  apart : members.Pairwise (Sdef.Apart t)
  unit : ∀ m before, m :: before <:+ members → m.Packed → zeroPending before →
    StartsUnit t m before

namespace Kept

variable {t : Target} {s : Layout}

end Kept

/-! ## Runs -/

theorem Good.suffix {before members : List Sdef} (good : Good t members) (suffix : before <:+ members) :
    Good t before :=
  ⟨fun m member => good.offset m (suffix.subset member),
    good.apart.sublist suffix.sublist,
    fun m rest earlier => good.unit m rest (earlier.trans suffix)⟩

def four (right : Bool) : Target := ⟨4, 4, right⟩

def empty : Layout := ⟨0, 1, [], false, false, 0, 0⟩

/-- `char a; int b : 3, c : 5;` -/
def three : List Decl := [.ordinary 1 1, .field .int 4 3 false, .field .int 4 5 false]

end AckFormal.Cem.Struct
