import AckFormal.Flt.Division
import AckFormal.Flt.Str2Flt

/-!
# Conversion from and to integers

`arith` is the 64-bit `long` of the host.
-/

namespace AckFormal.Flt.Conversions

open Mantissa Number FltArith

/-- The part of `flt_arith2flt` behind the sign; zero leaves the status as it
was. -/
def magnitude2flt (sign : Bool) (n : Int64) (status : FltStatus) : FltArith × FltStatus :=
  let mantissa : FltMantissa :=
    ⟨UInt32.ofBitVec ((n.toBitVec.sshiftRight 32).setWidth 32),
      UInt32.ofBitVec (n.toBitVec.setWidth 32)⟩
  if n = 0 then (⟨sign, 0, mantissa⟩, status)
  else (fltNrm ⟨sign, 63, mantissa⟩, .ok)

def fltArith2flt (n : Int64) (uns : Bool) (status : FltStatus) : FltArith × FltStatus :=
  if !uns ∧ n < 0 then magnitude2flt true (-n) status
  else magnitude2flt false n status

/-- `flt_flt2arith`: the integer, the number as the call leaves it, and the
status.  The high half of the shifted mantissa is shifted out of its 32-bit
word before it reaches the result. -/
def fltFlt2arith (e : FltArith) (uns : Bool) : Int64 × FltArith × FltStatus :=
  let unsign : Int := if uns then 1 else 0
  let negative : Int := if e.sign then 1 else 0
  if e.sign ∧ uns then (0, e, .unfl)
  else if e.exp < 0 then (Int64.ofInt (-negative), e, .ok)
  else
    let (e, status) :=
      if e.exp > 62 + unsign then
        if e.sign ∧ e.exp = 63 ∧ e.m2 = 0 ∧ e.m1 = 0x80000000 then (e, FltStatus.ok)
        else
          ({ e with
              exp := toShort (62 + unsign + negative)
              mantissa := if e.sign then ⟨0x80000000, 0⟩ else ⟨0xFFFFFFFF, 0xFFFFFFFF⟩ },
            FltStatus.ovfl)
      else (e, FltStatus.ok)
    let a := fltB64Sft e.mantissa (63 - e.exp)
    let n := Int64.ofNat (a.l32 ||| ((a.h32 <<< 16) <<< 16)).toNat
    (if e.sign then -n else n, e, status)

theorem arithWords_value (n : BitVec 64) :
    (⟨UInt32.ofBitVec ((n.sshiftRight 32).setWidth 32), UInt32.ofBitVec (n.setWidth 32)⟩ :
      FltMantissa).value = n.toNat := by
  have high : ((n.sshiftRight 32).setWidth 32).toNat = n.toNat / 2 ^ 32 := by
    have logical : (n.sshiftRight 32).setWidth 32 = (n >>> 32).setWidth 32 := by
      refine BitVec.eq_of_getLsbD_eq fun i inside => ?_
      simp [BitVec.getLsbD_sshiftRight, inside, show 32 + i < 64 by omega,
        show ¬ 64 ≤ i by omega]
    rw [logical]
    simp [Nat.shiftRight_eq_div_pow]
    omega
  unfold FltMantissa.value
  simp only [UInt32.toNat_ofBitVec, high, BitVec.toNat_setWidth]
  omega

theorem magnitude2flt_canonical {sign : Bool} {n : Int64} (status : FltStatus)
    (signed : n = 0 → sign = false) : (magnitude2flt sign n status).1.Canonical := by
  unfold magnitude2flt
  split
  next isZero =>
    rw [isZero, signed isZero]
    exact Or.inl rfl
  next nonzero =>
    have someBit : n.toBitVec.toNat ≠ 0 := by
      intro empty
      refine nonzero (Int64.toBitVec_inj.mp ?_)
      exact BitVec.eq_of_toNat_eq empty
    rw [← arithWords_value] at someBit
    obtain ⟨normal, low, high⟩ :=
      fltNrm_integer (e := ⟨sign, 63, _⟩) (mt FltMantissa.value_eq_zero.mpr someBit) rfl
    exact Or.inr ⟨normal, lt_of_lt_of_le (by decide) low, lt_of_le_of_lt high (by decide)⟩

theorem fltArith2flt_canonical (n : Int64) (uns : Bool) (status : FltStatus) :
    (fltArith2flt n uns status).1.Canonical := by
  unfold fltArith2flt
  split
  next negative =>
    refine magnitude2flt_canonical status fun zero => ?_
    have isZero : n = 0 := by simpa using congrArg Neg.neg zero
    rw [isZero] at negative
    exact absurd negative.2 (by decide)
  next => exact magnitude2flt_canonical status fun _ => rfl

theorem fltFlt2arith_zero (uns : Bool) : fltFlt2arith zero uns = (0, zero, .ok) := by
  cases uns <;> decide

end AckFormal.Flt.Conversions

/-!
## Sequences of operations

The C functions read and write numbers through pointers.  The store maps
objects to the results they hold and keeps `flt_status`.  `flt_sub` negates its
second operand in place for the time of the addition, and `flt_modf` calls it on
the integer part it has just stored; both are modelled store by store, so that
calls with coinciding pointers behave as they do in C.
-/

namespace AckFormal.Flt.Sequence

open Mantissa Number FltArith Operations Division Conversions Str2Flt

structure Store where
  cells : Nat → Option FltArith
  status : FltStatus

namespace Store

def empty : Store := ⟨fun _ => none, .ok⟩

def write (st : Store) (l : Nat) (e : FltArith) : Store :=
  { st with cells := Function.update st.cells l (some e) }

@[simp] theorem write_cells_self (st : Store) (l : Nat) (e : FltArith) :
    (st.write l e).cells l = some e :=
  Function.update_self ..

theorem write_cells_of_ne (st : Store) {l other : Nat} (e : FltArith) (distinct : other ≠ l) :
    (st.write l e).cells other = st.cells other :=
  Function.update_of_ne distinct ..

end Store

def deliver (st : Store) (res : Nat) (result : FltArith × FltStatus) : Store :=
  { st.write res result.1 with status := result.2 }

def fltSub (st : Store) (e1 e2 res : Nat) : Option Store := do
  let subtrahend ← st.cells e2
  let st := st.write e2 subtrahend.negate
  let x ← st.cells e1
  let y ← st.cells e2
  let st := deliver st res (fltAdd x y)
  let back ← st.cells e2
  some (st.write e2 back.negate)

/-- The integer part: the low order bits are shifted out and zeros shifted in. -/
def integerPart (x : FltArith) : FltArith :=
  { x with mantissa := fltB64Sft (fltB64Sft x.mantissa (63 - x.exp)) (x.exp - 63) }

def fltModf (st : Store) (e ipart fpart : Nat) : Option Store := do
  let x ← st.cells e
  if x.exp < 0 then
    some ((st.write fpart x).write ipart zero)
  else if x.exp ≥ 63 then
    let st := st.write fpart zero
    let x ← st.cells e
    some (st.write ipart x)
  else
    fltSub (st.write ipart (integerPart x)) e ipart fpart

inductive Op where
  | add (e1 e2 res : Nat)
  | sub (e1 e2 res : Nat)
  | mul (e1 e2 res : Nat)
  | div (e1 e2 res : Nat)
  | modf (e ipart fpart : Nat)
  | arith2flt (n : Int64) (e : Nat) (uns : Bool)
  | str2flt (s : List UInt8) (e : Nat)

def Op.results : Op → List Nat
  | .add _ _ res | .sub _ _ res | .mul _ _ res | .div _ _ res => [res]
  | .modf _ ipart fpart => [ipart, fpart]
  | .arith2flt _ e _ | .str2flt _ e => [e]

/-- A call on operands that are results of earlier calls. -/
def step (st : Store) : Op → Option Store
  | .add e1 e2 res => do
      let x ← st.cells e1
      let y ← st.cells e2
      some (deliver st res (fltAdd x y))
  | .sub e1 e2 res => fltSub st e1 e2 res
  | .mul e1 e2 res => do
      let x ← st.cells e1
      let y ← st.cells e2
      some (deliver st res (fltMul x y))
  | .div e1 e2 res => do
      let x ← st.cells e1
      let y ← st.cells e2
      some (deliver st res (fltDiv x y))
  | .modf e ipart fpart => fltModf st e ipart fpart
  | .arith2flt n e uns => some (deliver st e (fltArith2flt n uns st.status))
  | .str2flt s e => some (deliver st e (fltStr2flt s))

/-- A sequence of calls from a store without results, every call of which meets
the condition `ok` in the store it is made in. -/
inductive Run (ok : Store → Op → Prop) : List Op → Store → Prop where
  | nil : Run ok [] Store.empty
  | snoc {ops : List Op} {op : Op} {st st' : Store} (before : Run ok ops st) (met : ok st op)
      (next : step st op = some st') : Run ok (ops ++ [op]) st'

def IsZero (st : Store) (l : Nat) : Prop :=
  ∃ x, st.cells l = some x ∧ x.mantissa = FltMantissa.zero

def Admissible (st : Store) : Op → Prop
  | .div _ e2 _ => ¬ IsZero st e2
  | _ => True

/-- A number that compares equal to zero, adds as zero and converts to the
integer zero. -/
structure ActsAsZero (p : FltArith) : Prop where
  compares : fltCmp p zero = 0 ∧ fltCmp zero p = 0
  adds : ∀ z : FltArith, z.Canonical → (fltAdd p z).1 = z ∧ (fltAdd z p).1 = z
  converts : ∀ uns, (fltFlt2arith p uns).1 = 0

/-- What is asked of a call that takes `st` to `st'`: every result is canonical
unless the call reported an overflow, and a product with a zero operand acts as
zero. -/
structure CallCanonical (st : Store) (op : Op) (st' : Store) : Prop where
  results : ∀ l ∈ op.results, ∃ x, st'.cells l = some x ∧ Delivered (x, st'.status)
  product : ∀ e1 e2 res, op = .mul e1 e2 res → IsZero st e1 ∨ IsZero st e2 →
    ∃ p, st'.cells res = some p ∧ ActsAsZero p

end AckFormal.Flt.Sequence
