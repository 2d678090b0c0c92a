import Mathlib.Data.Int.ModEq
import Mathlib.Tactic.NormNum
import Mathlib.Tactic.Positivity
import Mathlib.Tactic.Ring

/-!
# Folding integer constants

`cstbin` of the C compiler computes an operation on two constants in the widest integer of the host
and cuts the result to the size of the type.  What the host leaves undefined has no result here.
-/

namespace AckFormal.Cem.Cstoper

abbrev Writh := BitVec 64

def maxSize : Nat := 8

/-- The loop of `init_cst`, with so many places of `full_mask` left: the masks from the next place
on.  Without a result the array is too small, which is fatal. -/
def fillMasks : Nat → Writh → Option (List Writh)
  | 0, bt => if bt.slt 0 then some [] else none
  | places + 1, bt =>
    if bt.slt 0 then some []
    else
      let bt := (bt <<< 8) + 0xFF
      (fillMasks places bt).map (bt :: ·)

def fullMask (size : Nat) : Writh :=
  (0 :: (fillMasks maxSize 0).getD []).getD size 0

/-- What is used of a type: `tp_unsigned`, `tp_size`, and whether `tp_fund` is `POINTER`. -/
structure Tp where
  unsigned : Bool
  size : Nat
  pointer : Bool

structure Expr where
  type : Tp
  value : Writh
  flags : BitVec 16

def parens : BitVec 16 := 0x10

inductive Oper where
  | times
  | div
  | mod
  | plus
  | minus
  | left
  | right
  | less
  | greater
  | lesseq
  | greatereq
  | equal
  | notequal
  | and
  | or
  | xor
  deriving DecidableEq

inductive Message where
  | error (text : String)
  | warning (text : String)

/-! ## Operations of the host -/

section Host

/-- The quotient of signed numbers; dividing by zero and dividing the least number by -1 trap. -/
def divide (o1 o2 : Writh) : Option Writh :=
  if o2 = 0 ∨ o1 = BitVec.intMin 64 ∧ o2 = -1 then none else some (o1.sdiv o2)

/-- The remainder of signed numbers, which the same instruction computes. -/
def remainder (o1 o2 : Writh) : Option Writh :=
  if o2 = 0 ∨ o1 = BitVec.intMin 64 ∧ o2 = -1 then none else some (o1.srem o2)

/-- A shift is defined for counts below the width; a negative count is a large one here. -/
def shift (count : Writh) (result : Writh) : Option Writh :=
  if count.toNat < 64 then some result else none

/-- A signed shift to the left.  The C standard leaves it undefined where the number is negative or
the result does not fit; a host that is not `strict` shifts the bits. -/
def shiftLeft (strict : Bool) (o1 : Writh) (count : Nat) : Option Writh :=
  if strict ∧ (o1.toInt < 0 ∨ 2 ^ 63 ≤ o1.toInt * 2 ^ count) then none else some (o1 <<< count)

end Host

def truth (b : Bool) : Writh := if b then 1 else 0

def greater (uns : Bool) (o1 o2 : Writh) : Writh :=
  truth (if uns then o2.ult o1 else o2.slt o1)

def greatereq (uns : Bool) (o1 o2 : Writh) : Writh :=
  truth (if uns then o2.ule o1 else o2.sle o1)

/-- The `switch` of `cstbin`; a zero divisor leaves the first operand. -/
def compute (uns : Bool) (oper : Oper) (o1 o2 : Writh) : Option Writh :=
  match oper with
  | .times => some (o1 * o2)
  | .div =>
    if o2 = 0 then some o1
    else if uns then some (o1 / o2)
    else divide o1 o2
  | .mod =>
    if o2 = 0 then some o1
    else if uns then some (o1 % o2)
    else remainder o1 o2
  | .plus => some (o1 + o2)
  | .minus => some (o1 - o2)
  | .left => shift o2 (o1 <<< o2.toNat)
  | .right =>
    if o2 = 0 then some o1
    else if uns then shift o2 (o1 >>> o2.toNat)
    else shift o2 (o1.sshiftRight o2.toNat)
  -- the operands of `<` and `<=` change places
  | .less => some (greater uns o2 o1)
  | .greater => some (greater uns o1 o2)
  | .lesseq => some (greatereq uns o2 o1)
  | .greatereq => some (greatereq uns o1 o2)
  | .equal => some (truth (o1 == o2))
  | .notequal => some (truth (o1 != o2))
  | .and => some (o1 &&& o2)
  | .or => some (o1 ||| o2)
  | .xor => some (o1 ^^^ o2)

def zeroText : Oper → Option String
  | .div => some "division by 0"
  | .mod => some "modulo by 0"
  | _ => none

def zeroReport (resultKnown : Bool) (oper : Oper) (o2 : Writh) : List Message :=
  match zeroText oper with
  | none => []
  | some text =>
    if o2 = 0 then
      if resultKnown then [.warning text] else [.error text]
    else []

def cutSize (strict resultKnown : Bool) (expr : Expr) : List Message × Option Expr :=
  let o1 := expr.value
  -- why warn on "ptr-3" ?
  let uns := expr.type.unsigned && !expr.type.pointer
  let mask := fullMask expr.type.size
  if uns then
    (if o1 &&& ~~~mask ≠ 0 ∧ ¬ resultKnown then
        [.warning "overflow in unsigned constant expression"]
      else [],
      some { expr with value := o1 &&& mask })
  else
    let nbits := (8 - expr.type.size) * 8
    let rest := o1 &&& ~~~mask
    (if rest ≠ 0 ∧ rest ≠ ~~~mask ∧ ¬ resultKnown then
        [.warning "overflow in constant expression"]
      else [],
      (shiftLeft strict o1 nbits).map fun o1 => { expr with value := o1.sshiftRight nbits })

/-- `cstbin`: the messages, and the constant in place of the first operand. -/
def cstbin (strict resultKnown : Bool) (oper : Oper) (expp expr : Expr) :
    List Message × Option Expr :=
  let report := zeroReport resultKnown oper expr.value
  match compute expp.type.unsigned oper expp.value expr.value with
  | none => (report, none)
  | some o1 =>
    let (messages, cut) := cutSize strict resultKnown { expp with value := o1 }
    (report ++ messages,
      cut.map fun e => { e with flags := (e.flags ||| expr.flags) &&& ~~~parens })

def Oper.relational : Oper → Bool
  | .less | .greater | .lesseq | .greatereq | .equal | .notequal => true
  | _ => false

/-- The operators whose second operand `ch3bin` converts to `int`. -/
def Oper.shifts : Oper → Bool
  | .left | .right => true
  | _ => false

/-- The way of two constants through `ch3bin` and `mk_binop`, once their types are balanced. -/
def fold (strict resultKnown : Bool) (intType : Tp) (oper : Oper) (expp expr : Expr) :
    List Message × Option Expr :=
  let (messages, result) := cstbin strict resultKnown oper expp expr
  (messages, result.map fun e => if oper.relational then { e with type := intType } else e)

/-! ## Constants of a type -/

namespace Tp

structure Integral (t : Tp) : Prop where
  plain : t.pointer = false
  size : t.size = 1 ∨ t.size = 2 ∨ t.size = 4 ∨ t.size = 8

def word (t : Tp) (v : Writh) : BitVec (8 * t.size) := v.setWidth (8 * t.size)

def extend (t : Tp) (w : BitVec (8 * t.size)) : Writh :=
  if t.unsigned then w.setWidth 64 else w.signExtend 64

def number (t : Tp) (w : BitVec (8 * t.size)) : Int :=
  if t.unsigned then w.toNat else w.toInt

def Holds (t : Tp) (v : Writh) : Prop := v = t.extend (t.word v)

instance (t : Tp) (v : Writh) : Decidable (t.Holds v) :=
  inferInstanceAs (Decidable (v = t.extend (t.word v)))

theorem Integral.le {t : Tp} (integral : t.Integral) : t.size ≤ maxSize := by
  have sizes := integral.size
  unfold maxSize
  omega

theorem Integral.bits {t : Tp} (integral : t.Integral) : 0 < 8 * t.size ∧ 8 * t.size ≤ 64 := by
  have sizes := integral.size
  omega

end Tp

namespace Expr

def Canonical (e : Expr) : Prop := e.type.Holds e.value

def denotes (e : Expr) : Int := e.type.number (e.type.word e.value)

end Expr

/-- What the operation gives for two numbers of a type, before it is reduced to the type's words. -/
def exact (t : Tp) (oper : Oper) (a b : Int) : Int :=
  let word (v : Int) := BitVec.ofInt (8 * t.size) v
  match oper with
  | .times => a * b
  | .div => a.tdiv b
  | .mod => a.tmod b
  | .plus => a + b
  | .minus => a - b
  | .left => a * 2 ^ b.toNat
  | .right => a / 2 ^ b.toNat
  | .less => if a < b then 1 else 0
  | .greater => if b < a then 1 else 0
  | .lesseq => if a ≤ b then 1 else 0
  | .greatereq => if b ≤ a then 1 else 0
  | .equal => if a = b then 1 else 0
  | .notequal => if a = b then 0 else 1
  | .and => t.number (word a &&& word b)
  | .or => t.number (word a ||| word b)
  | .xor => t.number (word a ^^^ word b)

/-- The operands as `ch3bin` has them: of one type, but a shift count is an `int`. -/
def Balanced (intType : Tp) (oper : Oper) (expp expr : Expr) : Prop :=
  expr.type = if oper.shifts then intType else expp.type

def DividesByZero (oper : Oper) (expr : Expr) : Prop :=
  (oper = .div ∨ oper = .mod) ∧ expr.value = 0

/-- The folded constant is canonical, and its word is that of the exact result. -/
structure Agrees (oper : Oper) (expp expr result : Expr) : Prop where
  canonical : result.Canonical
  word : result.type.word result.value =
    BitVec.ofInt (8 * result.type.size) (exact expp.type oper expp.denotes expr.denotes)

/-- Folding has a result, and it agrees with the operation of the target. -/
def Folds (strict resultKnown : Bool) (intType : Tp) (oper : Oper) (expp expr : Expr) : Prop :=
  ∃ result, (fold strict resultKnown intType oper expp expr).2 = some result ∧
    result.type = (if oper.relational then intType else expp.type) ∧ Agrees oper expp expr result

/-- When the host has a result for all that is computed. -/
structure Defined (strict : Bool) (oper : Oper) (expp expr : Expr) : Prop where
  /-- A shift count is from 0 up to 63. -/
  count : oper.shifts → 0 ≤ expr.denotes ∧ expr.denotes < 64
  /-- The least number of 64 bits is not divided by -1. -/
  dividend : oper = .div ∨ oper = .mod → expp.type.unsigned = false →
    ¬ (expp.denotes = -2 ^ 63 ∧ expr.denotes = -1)
  /-- A strict host shifts no negative number and none that does not fit the type. -/
  signed : strict → expp.type.unsigned = false →
    let wide := (BitVec.ofInt 64 (exact expp.type oper expp.denotes expr.denotes)).toInt
    0 ≤ wide ∧ wide < 2 ^ (8 * expp.type.size - 1)

/-! ## The masks and the cut -/

theorem fullMask_toNat {size : Nat} (sizes : size ≤ maxSize) :
    (fullMask size).toNat = 2 ^ (8 * size) - 1 := by
  revert size
  decide

variable {m n : Nat}

/-- Shifting to the left and then to the right takes out `n` bits and copies their sign. -/
theorem shift_extract {s : Nat} (sum : s + n ≤ m) (positive : 0 < n) (x : BitVec m) :
    (x <<< (m - n - s)).sshiftRight (m - n) = ((x >>> s).setWidth n).signExtend m := by
  refine BitVec.eq_of_getLsbD_eq fun i below => ?_
  rw [BitVec.getLsbD_sshiftRight, BitVec.getLsbD_signExtend]
  have last : (x <<< (m - n - s)).msb = ((x >>> s).setWidth n).msb := by
    rw [BitVec.msb_eq_getLsbD_last, BitVec.msb_eq_getLsbD_last, BitVec.getLsbD_shiftLeft,
      BitVec.getLsbD_setWidth, BitVec.getLsbD_ushiftRight]
    have top : m - 1 < m := by omega
    have inside : ¬ m - 1 < m - n - s := by omega
    have place : m - 1 - (m - n - s) = s + (n - 1) := by omega
    simp [top, inside, place, positive]
  rw [last]
  by_cases kept : i < n
  · have near : m - n + i < m := by omega
    have inside : ¬ m - n + i < m - n - s := by omega
    have place : m - n + i - (m - n - s) = s + i := by omega
    rw [if_pos near, if_pos kept, BitVec.getLsbD_shiftLeft, BitVec.getLsbD_setWidth,
      BitVec.getLsbD_ushiftRight, place]
    simp [near, inside, kept, below]
  · have far : ¬ m - n + i < m := by omega
    simp [far, kept, below]

theorem shift_back {k : Nat} (sum : n + k = m) (positive : 0 < n) (x : BitVec m) :
    (x <<< k).sshiftRight k = (x.setWidth n).signExtend m := by
  have all := shift_extract (s := 0) (by omega) positive x
  rw [Nat.sub_zero, BitVec.ushiftRight_zero, show m - n = k by omega] at all
  exact all

theorem setWidth_signExtend (wide : n ≤ m) (w : BitVec n) : (w.signExtend m).setWidth n = w := by
  refine BitVec.eq_of_getLsbD_eq fun i below => ?_
  have near : i < m := by omega
  rw [BitVec.getLsbD_setWidth, BitVec.getLsbD_signExtend]
  simp only [below, near, decide_true, Bool.true_and, if_true]

namespace Tp

variable {t : Tp}

theorem extend_word_unsigned (uns : t.unsigned = true) (v : Writh) :
    t.extend (t.word v) = (v.setWidth (8 * t.size)).setWidth 64 := by
  rw [extend, uns]
  rfl

theorem extend_word_signed (signed : t.unsigned = false) (v : Writh) :
    t.extend (t.word v) = (v.setWidth (8 * t.size)).signExtend 64 := by
  rw [extend, signed]
  rfl

theorem mask_word (integral : t.Integral) (uns : t.unsigned = true) (v : Writh) :
    v &&& fullMask t.size = t.extend (t.word v) := by
  rw [extend_word_unsigned uns]
  refine BitVec.eq_of_toNat_eq ?_
  have least : v.toNat % 2 ^ (8 * t.size) ≤ v.toNat := Nat.mod_le _ _
  rw [BitVec.toNat_and, fullMask_toNat integral.le, Nat.and_two_pow_sub_one_eq_mod,
    BitVec.toNat_setWidth, BitVec.toNat_setWidth, Nat.mod_eq_of_lt (lt_of_le_of_lt least v.isLt)]

theorem word_extend (integral : t.Integral) (w : BitVec (8 * t.size)) :
    t.word (t.extend w) = w := by
  obtain ⟨-, most⟩ := integral.bits
  unfold word extend
  cases t.unsigned with
  | true =>
    simp [most]
  | false => exact setWidth_signExtend most w

theorem extend_number (t : Tp) (w : BitVec (8 * t.size)) :
    t.extend w = BitVec.ofInt 64 (t.number w) := by
  unfold extend number
  cases t.unsigned with
  | true => simp
  | false => rfl

theorem ofInt_number (t : Tp) (w : BitVec (8 * t.size)) :
    BitVec.ofInt (8 * t.size) (t.number w) = w := by
  unfold number
  cases t.unsigned with
  | true => simp
  | false => simp

def wide (t : Tp) (v : Writh) : Int := if t.unsigned then v.toNat else v.toInt

@[simp] theorem ofInt_wide (t : Tp) (v : Writh) : BitVec.ofInt 64 (t.wide v) = v := by
  unfold wide
  cases t.unsigned with
  | true => simp
  | false => simp

theorem Holds.number (integral : t.Integral) {v : Writh} (holds : t.Holds v) :
    t.number (t.word v) = t.wide v := by
  obtain ⟨-, most⟩ := integral.bits
  unfold Holds extend at holds
  unfold Tp.number wide
  cases uns : t.unsigned with
  | true =>
    rw [uns, if_pos rfl] at holds
    conv_rhs => rw [if_pos rfl, holds]
    rw [if_pos rfl, BitVec.toNat_setWidth, Nat.mod_eq_of_lt]
    exact lt_of_lt_of_le (t.word v).isLt (Nat.pow_le_pow_right (by decide) most)
  | false =>
    rw [uns, if_neg Bool.false_ne_true] at holds
    conv_rhs => rw [if_neg Bool.false_ne_true, holds]
    rw [if_neg Bool.false_ne_true, BitVec.toInt_signExtend_of_le most]

end Tp

/-! ## One operation -/

section Operations

variable {t : Tp} {o1 o2 o : Writh}

theorem eq_ofInt {x : Writh} {v : Int} (same : x.toInt = v.bmod (2 ^ 64)) : x = BitVec.ofInt 64 v :=
  BitVec.eq_of_toInt_eq (same.trans (BitVec.toInt_ofInt v).symm)

theorem ofInt_nat {x : Writh} {n : Nat} (same : x.toNat = n) : x = BitVec.ofInt 64 n := by
  rw [BitVec.ofInt_natCast, ← same, BitVec.ofNat_toNat, BitVec.setWidth_eq]

theorem truth_eq {b : Bool} {p : Prop} [Decidable p] (same : b = true ↔ p) :
    truth b = BitVec.ofInt 64 (if p then 1 else 0) := by
  cases b with
  | true => rw [if_pos (same.mp rfl)]; rfl
  | false => rw [if_neg fun holds => Bool.false_ne_true (same.mpr holds)]; rfl

theorem times_wide : o1 * o2 = BitVec.ofInt 64 (t.wide o1 * t.wide o2) := by
  rw [BitVec.ofInt_mul, Tp.ofInt_wide, Tp.ofInt_wide]

theorem plus_wide : o1 + o2 = BitVec.ofInt 64 (t.wide o1 + t.wide o2) := by
  rw [BitVec.ofInt_add, Tp.ofInt_wide, Tp.ofInt_wide]

theorem minus_wide : o1 - o2 = BitVec.ofInt 64 (t.wide o1 - t.wide o2) := by
  have back : t.wide o1 - t.wide o2 + t.wide o2 = t.wide o1 := by ring
  have sum := BitVec.ofInt_add (n := 64) (t.wide o1 - t.wide o2) (t.wide o2)
  rw [back, Tp.ofInt_wide, Tp.ofInt_wide] at sum
  exact (congrArg (· - o2) sum).trans (BitVec.add_sub_cancel _ _)

theorem div_wide (nonzero : o2 ≠ 0) (done : compute t.unsigned .div o1 o2 = some o) :
    o = BitVec.ofInt 64 ((t.wide o1).tdiv (t.wide o2)) := by
  replace done := (if_neg nonzero).symm.trans done
  unfold Tp.wide
  cases uns : t.unsigned with
  | true =>
    rw [uns, if_pos rfl] at done
    cases done
    exact ofInt_nat BitVec.toNat_udiv
  | false =>
    rw [uns, if_neg Bool.false_ne_true, divide, Option.ite_none_left_eq_some] at done
    cases done.2
    exact eq_ofInt (BitVec.toInt_sdiv o1 o2)

theorem mod_wide (nonzero : o2 ≠ 0) (done : compute t.unsigned .mod o1 o2 = some o) :
    o = BitVec.ofInt 64 ((t.wide o1).tmod (t.wide o2)) := by
  replace done := (if_neg nonzero).symm.trans done
  unfold Tp.wide
  cases uns : t.unsigned with
  | true =>
    rw [uns, if_pos rfl] at done
    cases done
    exact ofInt_nat BitVec.toNat_umod
  | false =>
    rw [uns, if_neg Bool.false_ne_true, remainder, Option.ite_none_left_eq_some] at done
    cases done.2
    rw [if_neg Bool.false_ne_true, if_neg Bool.false_ne_true, ← BitVec.toInt_srem,
      BitVec.ofInt_toInt]

theorem left_wide (count : Nat) : o1 <<< count = BitVec.ofInt 64 (t.wide o1 * 2 ^ count) := by
  have power : BitVec.ofInt 64 (2 ^ count) = BitVec.twoPow 64 count := by
    refine BitVec.eq_of_toNat_eq ?_
    have cast : (2 : Int) ^ count = ((2 ^ count : Nat) : Int) := by
      rfl
    rw [cast, BitVec.ofInt_natCast, BitVec.toNat_ofNat, BitVec.toNat_twoPow]
  rw [BitVec.ofInt_mul, Tp.ofInt_wide, power, BitVec.shiftLeft_eq_mul_twoPow]

theorem right_unsigned (uns : t.unsigned = true) (count : Nat) :
    o1 >>> count = BitVec.ofInt 64 (t.wide o1 / 2 ^ count) := by
  rw [Tp.wide, uns, if_pos rfl]
  exact ofInt_nat (by rw [BitVec.toNat_ushiftRight, Nat.shiftRight_eq_div_pow])

theorem right_signed (signed : t.unsigned = false) (count : Nat) :
    o1.sshiftRight count = BitVec.ofInt 64 (t.wide o1 / 2 ^ count) := by
  rw [Tp.wide, signed, if_neg Bool.false_ne_true]
  have quotient : o1.toInt / 2 ^ count = (o1.sshiftRight count).toInt := by
    rw [BitVec.toInt_sshiftRight, Int.shiftRight_eq_div_pow]
    rfl
  rw [quotient, BitVec.ofInt_toInt]

theorem greater_wide :
    greater t.unsigned o1 o2 = BitVec.ofInt 64 (if t.wide o2 < t.wide o1 then 1 else 0) := by
  refine truth_eq ?_
  unfold Tp.wide
  cases t.unsigned with
  | true => exact BitVec.ult_iff_toNat_lt.trans Int.ofNat_lt.symm
  | false => exact BitVec.slt_iff_toInt_lt

theorem greatereq_wide :
    greatereq t.unsigned o1 o2 = BitVec.ofInt 64 (if t.wide o2 ≤ t.wide o1 then 1 else 0) := by
  refine truth_eq ?_
  unfold Tp.wide
  cases t.unsigned with
  | true => exact BitVec.ule_iff_toNat_le.trans Int.ofNat_le.symm
  | false => exact BitVec.sle_iff_toInt_le

theorem wide_inj : t.wide o1 = t.wide o2 ↔ o1 = o2 := by
  constructor
  · intro same
    rw [← t.ofInt_wide o1, same, t.ofInt_wide]
  · rintro rfl
    rfl

theorem equal_wide :
    truth (o1 == o2) = BitVec.ofInt 64 (if t.wide o1 = t.wide o2 then 1 else 0) :=
  truth_eq (beq_iff_eq.trans wide_inj.symm)

theorem notequal_wide :
    truth (o1 != o2) = BitVec.ofInt 64 (if t.wide o1 = t.wide o2 then 0 else 1) := by
  rw [← ite_not]
  exact truth_eq (bne_iff_ne.trans (not_congr wide_inj.symm))

theorem shift_done {count result : Writh} (done : shift count result = some o) :
    count.toNat < 64 ∧ o = result := by
  rw [shift, Option.ite_none_right_eq_some] at done
  exact ⟨done.1, (Option.some.inj done.2).symm⟩

/-- The result of a shift to the right, where the host has one. -/
theorem right_wide (done : compute t.unsigned .right o1 o2 = some o) :
    o2.toNat < 64 ∧ o = BitVec.ofInt 64 (t.wide o1 / 2 ^ o2.toNat) := by
  by_cases zero : o2 = 0
  · replace done := (if_pos zero).symm.trans done
    cases done
    rw [zero]
    exact ⟨by decide, by simp⟩
  · replace done := (if_neg zero).symm.trans done
    cases uns : t.unsigned with
    | true =>
      rw [uns, if_pos rfl] at done
      obtain ⟨small, rfl⟩ := shift_done done
      exact ⟨small, right_unsigned uns _⟩
    | false =>
      rw [uns, if_neg Bool.false_ne_true] at done
      obtain ⟨small, rfl⟩ := shift_done done
      exact ⟨small, right_signed uns _⟩

namespace Tp

theorem extend_and (t : Tp) (w1 w2 : BitVec (8 * t.size)) :
    t.extend (w1 &&& w2) = t.extend w1 &&& t.extend w2 := by
  unfold extend
  cases t.unsigned with
  | true => exact BitVec.setWidth_and
  | false => exact BitVec.signExtend_and

theorem extend_or (t : Tp) (w1 w2 : BitVec (8 * t.size)) :
    t.extend (w1 ||| w2) = t.extend w1 ||| t.extend w2 := by
  unfold extend
  cases t.unsigned with
  | true => exact BitVec.setWidth_or
  | false => exact BitVec.signExtend_or

theorem extend_xor (t : Tp) (w1 w2 : BitVec (8 * t.size)) :
    t.extend (w1 ^^^ w2) = t.extend w1 ^^^ t.extend w2 := by
  unfold extend
  cases t.unsigned with
  | true => exact BitVec.setWidth_xor
  | false => exact BitVec.signExtend_xor

end Tp

/-- The one quotient of 64 bits that the host does not have. -/
def Traps (o1 o2 : Writh) : Prop := o1 = BitVec.intMin 64 ∧ o2 = -1

theorem trapping_isSome (nonzero : o2 ≠ 0) (x : Writh) :
    (if o2 = 0 ∨ o1 = BitVec.intMin 64 ∧ o2 = -1 then none else some x).isSome ↔
      ¬ Traps o1 o2 := by
  by_cases least : o1 = BitVec.intMin 64 ∧ o2 = -1
  · rw [if_pos (Or.inr least)]
    exact iff_of_false Bool.false_ne_true (not_not_intro least)
  · rw [if_neg fun either => either.elim nonzero least]
    exact iff_of_true rfl least

theorem shift_isSome (count result : Writh) : (shift count result).isSome ↔ count.toNat < 64 := by
  unfold shift
  by_cases small : count.toNat < 64
  · rw [if_pos small]
    exact iff_of_true rfl small
  · rw [if_neg small]
    exact iff_of_false Bool.false_ne_true small

variable {uns : Bool} {oper : Oper}

theorem division_isSome (division : oper = .div ∨ oper = .mod) (nonzero : o2 ≠ 0) :
    (compute uns oper o1 o2).isSome ↔ (uns = false → ¬ Traps o1 o2) := by
  obtain ⟨q, r, same⟩ : ∃ q r : Writh, compute uns oper o1 o2 =
      if uns then some q
      else if o2 = 0 ∨ o1 = BitVec.intMin 64 ∧ o2 = -1 then none else some r := by
    rcases division with rfl | rfl
    · exact ⟨_, _, if_neg nonzero⟩
    · exact ⟨_, _, if_neg nonzero⟩
  rw [same]
  cases uns with
  | true => exact iff_of_true rfl fun signed => absurd signed.symm Bool.false_ne_true
  | false =>
    rw [if_neg Bool.false_ne_true, trapping_isSome nonzero]
    exact ⟨fun safe _ => safe, fun safe => safe rfl⟩

theorem shifting_isSome (shifts : oper.shifts = true) :
    (compute uns oper o1 o2).isSome ↔ o2.toNat < 64 := by
  cases oper with
  | left => exact shift_isSome _ _
  | right =>
    by_cases zero : o2 = 0
    · rw [show compute uns .right o1 o2 = some o1 from if_pos zero, zero]
      exact iff_of_true rfl (by decide)
    · cases uns with
      | true =>
        rw [show compute true .right o1 o2 = shift o2 (o1 >>> o2.toNat) from if_neg zero]
        exact shift_isSome _ _
      | false =>
        rw [show compute false .right o1 o2 = shift o2 (o1.sshiftRight o2.toNat) from
          if_neg zero]
        exact shift_isSome _ _
  | _ => cases shifts

theorem plain_isSome (shifts : oper.shifts = false) (plain : ¬ (oper = .div ∨ oper = .mod)) :
    (compute uns oper o1 o2).isSome := by
  cases oper with
  | div => exact absurd (Or.inl rfl) plain
  | mod => exact absurd (Or.inr rfl) plain
  | left => cases shifts
  | right => cases shifts
  | _ => rfl

/-- When the host has a result, for a divisor that is not zero. -/
theorem compute_isSome (nonzero : oper = .div ∨ oper = .mod → o2 ≠ 0) :
    (compute uns oper o1 o2).isSome ↔
      (oper.shifts → o2.toNat < 64) ∧
        (oper = .div ∨ oper = .mod → uns = false → ¬ Traps o1 o2) := by
  by_cases division : oper = .div ∨ oper = .mod
  · have still : ¬ oper.shifts := by
      rcases division with rfl | rfl <;> exact Bool.false_ne_true
    rw [division_isSome division (nonzero division)]
    exact ⟨fun safe => ⟨fun shifts => absurd shifts still, fun _ => safe⟩,
      fun safe => safe.2 division⟩
  · cases shifts : oper.shifts with
    | true =>
      rw [shifting_isSome shifts]
      exact ⟨fun small => ⟨fun _ => small, fun d => absurd d division⟩, fun safe => safe.1 rfl⟩
    | false =>
      exact iff_of_true (plain_isSome shifts division)
        ⟨fun t => absurd t Bool.false_ne_true, fun d => absurd d division⟩

/-- What the host computes for two canonical values of a type is the exact result in 64 bits. -/
theorem compute_same (integral : t.Integral) (plain : oper.shifts = false) (first : t.Holds o1)
    (second : t.Holds o2) (nonzero : oper = .div ∨ oper = .mod → o2 ≠ 0)
    (done : compute t.unsigned oper o1 o2 = some o) :
    o = BitVec.ofInt 64 (exact t oper (t.number (t.word o1)) (t.number (t.word o2))) := by
  cases oper with
  | left => cases plain
  | right => cases plain
  | and =>
    cases done
    change _ = BitVec.ofInt 64 (t.number (BitVec.ofInt _ _ &&& BitVec.ofInt _ _))
    rw [t.ofInt_number, t.ofInt_number, ← t.extend_number, t.extend_and, ← first, ← second]
  | or =>
    cases done
    change _ = BitVec.ofInt 64 (t.number (BitVec.ofInt _ _ ||| BitVec.ofInt _ _))
    rw [t.ofInt_number, t.ofInt_number, ← t.extend_number, t.extend_or, ← first, ← second]
  | xor =>
    cases done
    change _ = BitVec.ofInt 64 (t.number (BitVec.ofInt _ _ ^^^ BitVec.ofInt _ _))
    rw [t.ofInt_number, t.ofInt_number, ← t.extend_number, t.extend_xor, ← first, ← second]
  | times =>
    rw [first.number integral, second.number integral]
    cases done
    exact times_wide
  | div =>
    rw [first.number integral, second.number integral]
    exact div_wide (nonzero (Or.inl rfl)) done
  | mod =>
    rw [first.number integral, second.number integral]
    exact mod_wide (nonzero (Or.inr rfl)) done
  | plus =>
    rw [first.number integral, second.number integral]
    cases done
    exact plus_wide
  | minus =>
    rw [first.number integral, second.number integral]
    cases done
    exact minus_wide
  | less =>
    rw [first.number integral, second.number integral]
    cases done
    exact greater_wide
  | greater =>
    rw [first.number integral, second.number integral]
    cases done
    exact greater_wide
  | lesseq =>
    rw [first.number integral, second.number integral]
    cases done
    exact greatereq_wide
  | greatereq =>
    rw [first.number integral, second.number integral]
    cases done
    exact greatereq_wide
  | equal =>
    rw [first.number integral, second.number integral]
    cases done
    exact equal_wide
  | notequal =>
    rw [first.number integral, second.number integral]
    cases done
    exact notequal_wide

theorem compute_shift (integral : t.Integral) (shifts : oper.shifts = true) (first : t.Holds o1)
    (done : compute t.unsigned oper o1 o2 = some o) :
    o2.toNat < 64 ∧ o = BitVec.ofInt 64 (exact t oper (t.number (t.word o1)) o2.toNat) := by
  rw [first.number integral]
  cases oper with
  | left =>
    obtain ⟨small, rfl⟩ := shift_done done
    exact ⟨small, left_wide _⟩
  | right => exact right_wide done
  | _ => cases shifts

theorem compute_relational (relational : oper.relational = true)
    (done : compute uns oper o1 o2 = some o) : ∃ b, o = truth b := by
  cases oper with
  | less => exact ⟨_, (Option.some.inj done).symm⟩
  | greater => exact ⟨_, (Option.some.inj done).symm⟩
  | lesseq => exact ⟨_, (Option.some.inj done).symm⟩
  | greatereq => exact ⟨_, (Option.some.inj done).symm⟩
  | equal => exact ⟨_, (Option.some.inj done).symm⟩
  | notequal => exact ⟨_, (Option.some.inj done).symm⟩
  | _ => cases relational

end Operations

/-! ## The folded constant -/

namespace Tp

variable {t : Tp}

variable (integral : t.Integral)
include integral

theorem holds_truth (b : Bool) : t.Holds (truth b) := by
  obtain ⟨unsigned, size, pointer⟩ := t
  obtain ⟨plain, sizes⟩ := integral
  cases (plain : pointer = false)
  rcases (sizes : size = 1 ∨ size = 2 ∨ size = 4 ∨ size = 8) with rfl | rfl | rfl | rfl <;>
    cases unsigned <;> cases b <;> decide

theorem word_ofInt (v : Int) :
    t.word (BitVec.ofInt 64 v) = BitVec.ofInt (8 * t.size) v := by
  obtain ⟨-, most⟩ := integral.bits
  refine BitVec.eq_of_toNat_eq ?_
  have divides : ((2 ^ (8 * t.size) : Nat) : Int) ∣ ((2 ^ 64 : Nat) : Int) :=
    Int.natCast_dvd_natCast.mpr (pow_dvd_pow 2 most)
  have bits : (0 : Int) < (2 ^ (8 * t.size) : Nat) := by positivity
  rw [word, BitVec.toNat_setWidth, BitVec.toNat_ofInt, BitVec.toNat_ofInt]
  refine Int.ofNat_inj.mp ?_
  rw [Int.natCast_mod, Int.toNat_of_nonneg (Int.emod_nonneg _ (by decide)),
    Int.toNat_of_nonneg (Int.emod_nonneg _ bits.ne'), Int.emod_emod_of_dvd _ divides]

theorem holds_extend (w : BitVec (8 * t.size)) : t.Holds (t.extend w) := by
  rw [Holds, word_extend integral]

/-- The host shifts a value of at most so many bytes without leaving its own range. -/
theorem shiftLeft_isSome (strict : Bool) (o : Writh) :
    (shiftLeft strict o ((8 - t.size) * 8)).isSome ↔
      (strict → 0 ≤ o.toInt ∧ o.toInt < 2 ^ (8 * t.size - 1)) := by
  have power : (2 : Int) ^ 63 = 2 ^ (8 * t.size - 1) * 2 ^ ((8 - t.size) * 8) := by
    rcases integral.size with size | size | size | size <;> rw [size] <;> norm_num
  have positive : (0 : Int) < 2 ^ ((8 - t.size) * 8) := by positivity
  have large : 2 ^ 63 ≤ o.toInt * 2 ^ ((8 - t.size) * 8) ↔ 2 ^ (8 * t.size - 1) ≤ o.toInt := by
    rw [power]
    exact Int.mul_le_mul_iff_of_pos_right positive
  unfold shiftLeft
  by_cases bad : strict = true ∧ (o.toInt < 0 ∨ 2 ^ 63 ≤ o.toInt * 2 ^ ((8 - t.size) * 8))
  · rw [if_pos bad]
    refine iff_of_false Bool.false_ne_true fun safe => ?_
    have fits := safe bad.1
    rcases bad.2 with low | high
    · omega
    · exact absurd (large.mp high) (not_le.mpr fits.2)
  · rw [if_neg bad]
    refine iff_of_true rfl fun on => ?_
    obtain ⟨low, high⟩ := not_or.mp (not_and.mp bad on)
    exact ⟨not_lt.mp low, not_le.mp fun l => high (large.mpr l)⟩

end Tp

theorem shiftLeft_some {strict : Bool} {o shifted : Writh} {count : Nat}
    (done : shiftLeft strict o count = some shifted) : shifted = o <<< count := by
  rw [shiftLeft, Option.ite_none_left_eq_some] at done
  exact (Option.some.inj done.2).symm

section Cut

variable {strict resultKnown : Bool} {e : Expr}

/-- `cut_size` has a result unless the host shifts out of its range. -/
theorem cutSize_isSome (integral : e.type.Integral) :
    (cutSize strict resultKnown e).2.isSome ↔
      (strict → e.type.unsigned = false →
        0 ≤ e.value.toInt ∧ e.value.toInt < 2 ^ (8 * e.type.size - 1)) := by
  unfold cutSize
  rw [integral.plain]
  cases uns : e.type.unsigned with
  | true => exact iff_of_true rfl fun _ signed => absurd signed.symm Bool.false_ne_true
  | false =>
    have shifted := Tp.shiftLeft_isSome integral strict e.value
    refine Iff.trans (Eq.to_iff (congrArg (· = true) Option.isSome_map)) (shifted.trans ?_)
    exact ⟨fun fits on _ => fits on, fun fits on => fits on rfl⟩

theorem cutSize_some (integral : e.type.Integral) {cut : Expr}
    (done : (cutSize strict resultKnown e).2 = some cut) :
    cut = { e with value := e.type.extend (e.type.word e.value) } := by
  unfold cutSize at done
  rw [integral.plain] at done
  cases uns : e.type.unsigned with
  | true =>
    rw [uns] at done
    rw [← e.type.mask_word integral uns]
    exact (Option.some.inj done).symm
  | false =>
    rw [uns] at done
    obtain ⟨shifted, first, rfl⟩ := Option.map_eq_some_iff.mp done
    have sizes := integral.size
    rw [shiftLeft_some first, shift_back (n := 8 * e.type.size) (by omega) (by omega),
      Tp.extend_word_signed uns]

end Cut

section Fold

variable {strict resultKnown : Bool} {intType : Tp} {oper : Oper} {expp expr : Expr}

/-- `cstbin` has a result where the computation and the cut have one. -/
theorem fold_some {result : Expr} (integral : expp.type.Integral)
    (done : (fold strict resultKnown intType oper expp expr).2 = some result) :
    ∃ o, compute expp.type.unsigned oper expp.value expr.value = some o ∧
      result.type = (if oper.relational then intType else expp.type) ∧
      result.value = expp.type.extend (expp.type.word o) := by
  unfold fold cstbin at done
  cases value : compute expp.type.unsigned oper expp.value expr.value with
  | none =>
    rw [value] at done
    cases done
  | some o =>
    rw [value] at done
    obtain ⟨e, flagged, rfl⟩ := Option.map_eq_some_iff.mp done
    obtain ⟨cut, first, rfl⟩ := Option.map_eq_some_iff.mp flagged
    have same := cutSize_some (e := { expp with value := o }) integral first
    subst same
    refine ⟨o, rfl, ?_, ?_⟩
    · cases oper.relational <;> rfl
    · cases oper.relational <;> rfl

theorem fold_isSome (integral : expp.type.Integral) :
    (fold strict resultKnown intType oper expp expr).2.isSome ↔
      ∃ o, compute expp.type.unsigned oper expp.value expr.value = some o ∧
        (strict → expp.type.unsigned = false →
          0 ≤ o.toInt ∧ o.toInt < 2 ^ (8 * expp.type.size - 1)) := by
  unfold fold cstbin
  cases value : compute expp.type.unsigned oper expp.value expr.value with
  | none =>
    refine iff_of_false Bool.false_ne_true ?_
    rintro ⟨o, none, -⟩
    cases none
  | some o =>
    have cut : (cutSize strict resultKnown { expp with value := o }).2.isSome ↔ _ :=
      cutSize_isSome integral
    have kept : ((cutSize strict resultKnown { expp with value := o }).2.map fun e =>
        ({ e with flags := (e.flags ||| expr.flags) &&& ~~~parens } : Expr)).isSome ↔ _ :=
      (Eq.to_iff (congrArg (· = true) Option.isSome_map)).trans cut
    refine (Eq.to_iff (congrArg (· = true) Option.isSome_map)).trans (kept.trans ?_)
    constructor
    · intro fits
      exact ⟨o, rfl, fits⟩
    · rintro ⟨_, same, fits⟩
      cases same
      exact fits

variable {t : Tp}

theorem Tp.wide_small {v : Writh} : 0 ≤ t.wide v ∧ t.wide v < 64 ↔ v.toNat < 64 := by
  have signed := BitVec.toInt_eq_toNat_cond v
  unfold Tp.wide
  cases t.unsigned with
  | true => simp only [if_true]; omega
  | false =>
    split at signed <;> omega

theorem Tp.wide_of_small {v : Writh} (small : v.toNat < 64) : t.wide v = v.toNat := by
  have signed := BitVec.toInt_eq_toNat_cond v
  unfold Tp.wide
  cases t.unsigned with
  | true => rfl
  | false =>
    split at signed <;> omega

theorem traps_iff {o1 o2 : Writh} (signed : t.unsigned = false) :
    Traps o1 o2 ↔ t.wide o1 = -2 ^ 63 ∧ t.wide o2 = -1 := by
  unfold Traps Tp.wide
  rw [signed, if_neg Bool.false_ne_true, if_neg Bool.false_ne_true]
  refine and_congr ?_ ?_
  · rw [← BitVec.toInt_inj]
    rfl
  · rw [← BitVec.toInt_inj]
    rfl

/-- The conditions on the numbers are those of the host on its integers. -/
theorem defined_iff (integral : expp.type.Integral) (int : intType.Integral)
    (balanced : Balanced intType oper expp expr) (first : expp.Canonical)
    (second : expr.Canonical) :
    Defined strict oper expp expr ↔
      ((oper.shifts → expr.value.toNat < 64) ∧
        (oper = .div ∨ oper = .mod → expp.type.unsigned = false → ¬ Traps expp.value expr.value)) ∧
      (strict → expp.type.unsigned = false →
        let wide := (BitVec.ofInt 64 (exact expp.type oper expp.denotes expr.denotes)).toInt
        0 ≤ wide ∧ wide < 2 ^ (8 * expp.type.size - 1)) := by
  have right : expr.type.Integral := by
    rw [balanced]
    split
    · exact int
    · exact integral
  have left : expp.denotes = expp.type.wide expp.value := Tp.Holds.number integral first
  have count : expr.denotes = expr.type.wide expr.value := Tp.Holds.number right second
  have small : 0 ≤ expr.denotes ∧ expr.denotes < 64 ↔ expr.value.toNat < 64 := by
    rw [count]
    exact Tp.wide_small
  have trap : oper = .div ∨ oper = .mod → expp.type.unsigned = false →
      (Traps expp.value expr.value ↔ expp.denotes = -2 ^ 63 ∧ expr.denotes = -1) := by
    intro division signed
    have plain : oper.shifts = false := by
      rcases division with rfl | rfl <;> rfl
    have types : expr.type = expp.type := by
      rw [balanced, plain]
      rfl
    rw [left, count, types]
    exact traps_iff signed
  constructor
  · rintro ⟨counted, divided, signed⟩
    exact ⟨⟨fun shifts => small.mp (counted shifts),
      fun division uns => mt (trap division uns).mp (divided division uns)⟩, signed⟩
  · rintro ⟨⟨counted, divided⟩, signed⟩
    exact ⟨fun shifts => small.mpr (counted shifts),
      fun division uns => mt (trap division uns).mpr (divided division uns), signed⟩

theorem compute_exact {o : Writh} (integral : expp.type.Integral) (int : intType.Integral)
    (balanced : Balanced intType oper expp expr) (first : expp.Canonical)
    (second : expr.Canonical) (divides : ¬ DividesByZero oper expr)
    (done : compute expp.type.unsigned oper expp.value expr.value = some o) :
    o = BitVec.ofInt 64 (exact expp.type oper expp.denotes expr.denotes) := by
  unfold Balanced at balanced
  unfold Expr.denotes
  cases shifts : oper.shifts with
  | true =>
    rw [shifts, if_pos rfl] at balanced
    obtain ⟨small, same⟩ := compute_shift integral shifts first done
    have right : expr.type.Integral := balanced ▸ int
    rw [second.number right, Tp.wide_of_small small]
    exact same
  | false =>
    rw [shifts, if_neg Bool.false_ne_true] at balanced
    obtain ⟨type, value, flags⟩ := expr
    subst balanced
    exact compute_same integral shifts first second
      (fun division zero => divides ⟨division, zero⟩) done

/-- The exact result in 64 bits, cut to a type, has the word of the exact result. -/
theorem agrees_of_exact {o : Writh} {result : Expr} (integral : expp.type.Integral)
    (int : intType.Integral)
    (done : compute expp.type.unsigned oper expp.value expr.value = some o)
    (same : o = BitVec.ofInt 64 (exact expp.type oper expp.denotes expr.denotes))
    (type : result.type = if oper.relational then intType else expp.type)
    (value : result.value = expp.type.extend (expp.type.word o)) :
    Agrees oper expp expr result := by
  obtain ⟨t, v, flags⟩ := result
  cases relational : oper.relational with
  | true =>
    rw [relational, if_pos rfl] at type
    obtain ⟨b, rfl⟩ := compute_relational relational done
    rw [← Tp.holds_truth integral b] at value
    cases (type : t = intType)
    cases (value : v = truth b)
    constructor
    · exact Tp.holds_truth int b
    · change t.word (truth b) = _
      rw [same]
      exact Tp.word_ofInt int _
  | false =>
    rw [relational, if_neg Bool.false_ne_true] at type
    cases (type : t = expp.type)
    cases (value : v = expp.type.extend (expp.type.word o))
    constructor
    · exact Tp.holds_extend integral _
    · change expp.type.word (expp.type.extend (expp.type.word o)) = _
      rw [Tp.word_extend integral, same]
      exact Tp.word_ofInt integral _

theorem fold_reports (divides : DividesByZero oper expr) :
    ∃ text, zeroText oper = some text ∧
      (if resultKnown then Message.warning text else Message.error text) ∈
        (fold strict resultKnown intType oper expp expr).1 := by
  obtain ⟨division, zero⟩ := divides
  obtain ⟨text, said⟩ : ∃ text, zeroText oper = some text := by
    rcases division with rfl | rfl <;> exact ⟨_, rfl⟩
  have report : zeroReport resultKnown oper expr.value =
      [if resultKnown then Message.warning text else Message.error text] := by
    rw [zeroReport, said]
    cases resultKnown <;> exact if_pos zero
  refine ⟨text, said, ?_⟩
  unfold fold cstbin
  rw [report]
  cases compute expp.type.unsigned oper expp.value expr.value with
  | none => exact List.mem_singleton_self _
  | some o => exact List.mem_append_left _ (List.mem_singleton_self _)

/-- Two canonical constants are folded as the target computes if and only if the host has a result
for all that is computed; a zero divisor is reported. -/
theorem folds_iff (integral : expp.type.Integral) (int : intType.Integral)
    (balanced : Balanced intType oper expp expr) (first : expp.Canonical)
    (second : expr.Canonical) :
    (DividesByZero oper expr →
      ∃ text, zeroText oper = some text ∧
        (if resultKnown then Message.warning text else Message.error text) ∈
          (fold strict resultKnown intType oper expp expr).1) ∧
    (¬ DividesByZero oper expr →
      (Folds strict resultKnown intType oper expp expr ↔ Defined strict oper expp expr)) := by
  constructor
  · intro divides
    exact fold_reports divides
  · intro divides
    have nonzero : oper = .div ∨ oper = .mod → expr.value ≠ 0 :=
      fun division zero => divides ⟨division, zero⟩
    rw [defined_iff integral int balanced first second, ← compute_isSome nonzero]
    constructor
    · rintro ⟨result, done, -⟩
      obtain ⟨o, value, fits⟩ :=
        (fold_isSome integral).mp (Option.isSome_iff_exists.mpr ⟨result, done⟩)
      have same := compute_exact integral int balanced first second divides value
      subst same
      exact ⟨Option.isSome_iff_exists.mpr ⟨_, value⟩, fits⟩
    · rintro ⟨computed, fits⟩
      obtain ⟨o, value⟩ := Option.isSome_iff_exists.mp computed
      have same := compute_exact integral int balanced first second divides value
      rw [← same] at fits
      have some : (fold strict resultKnown intType oper expp expr).2.isSome :=
        (fold_isSome integral).mpr ⟨o, value, fits⟩
      obtain ⟨result, done⟩ := Option.isSome_iff_exists.mp some
      obtain ⟨o', again, type, cut⟩ := fold_some integral done
      cases value.symm.trans again
      exact ⟨result, done, type, agrees_of_exact integral int value same type cut⟩

end Fold

def int4 : Tp := ⟨false, 4, false⟩

def long8 : Tp := ⟨false, 8, false⟩

theorem int4_integral : int4.Integral := ⟨rfl, Or.inr (Or.inr (Or.inl rfl))⟩

/-- `7 / -2`. -/
theorem folds_iff_seven : Folds false false int4 .div ⟨int4, 7, 0⟩ ⟨int4, -2, 0⟩ := by
  have nonzero : ¬ DividesByZero .div ⟨int4, -2, 0⟩ :=
    fun divides => absurd divides.2 (show (-2 : Writh) ≠ 0 by decide)
  have defined : Defined false .div ⟨int4, 7, 0⟩ ⟨int4, -2, 0⟩ := by
    constructor
    · intro shifts
      cases shifts
    · rintro - - ⟨least, -⟩
      exact absurd least (show int4.number (int4.word 7) ≠ -2 ^ 63 by decide)
    · intro strict
      cases strict
  exact ((@folds_iff false false int4 .div ⟨int4, 7, 0⟩ ⟨int4, -2, 0⟩ int4_integral int4_integral
    rfl (show int4.Holds 7 by decide) (show int4.Holds (-2) by decide)).2 nonzero).mpr defined

/-- The least number divided by -1, and a shift by the width of the host's integer. -/
theorem folding_undefined :
    (long8.Holds (BitVec.intMin 64) ∧ long8.Holds (-1) ∧
      ¬ Folds false false int4 .div ⟨long8, BitVec.intMin 64, 0⟩ ⟨long8, -1, 0⟩) ∧
    (long8.Holds 1 ∧ int4.Holds 64 ∧
      ¬ Folds false false int4 .left ⟨long8, 1, 0⟩ ⟨int4, 64, 0⟩) := by
  refine ⟨⟨by decide, by decide, ?_⟩, by decide, by decide, ?_⟩
  · rintro ⟨result, done, -⟩
    cases done
  · rintro ⟨result, done, -⟩
    cases done

end AckFormal.Cem.Cstoper
