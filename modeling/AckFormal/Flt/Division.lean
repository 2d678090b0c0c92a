import AckFormal.Flt.Operations

/-!
# Division

`flt_div` divides digit by digit in base 65536.  The dividend, shifted by one
bit, stands in `u[0..4]` with zeros behind it, the divisor in `v[1..4]`.  All
`uint32_t` arithmetic is reduced modulo `2 ^ 32` and every store into an
`unsigned short` modulo `2 ^ 16`.
-/

namespace AckFormal.Flt.Division

open Mantissa Number FltArith

/-- The correction of the estimate: it goes down by one as long as the next
digit shows that it is too big. -/
def correctEstimate (v : Nat → Nat) (next : Nat) : Nat → Nat → Nat
  | 0, _ => 0
  | q + 1, temp =>
    if temp / 2 ^ 16 = 0 ∧ v 2 * (q + 1) % 2 ^ 32 > (temp * 2 ^ 16 + next) % 2 ^ 32 then
      correctEstimate v next q ((temp + v 1) % 2 ^ 32)
    else q + 1

def estimate (u v : Nat → Nat) (j : Nat) : Nat :=
  let temp := u j * 2 ^ 16 + u (j + 1)
  let q := if u j ≥ v 1 then 0xFFFF else if v 1 = 1 then temp else temp / v 1
  correctEstimate v (u (j + 2)) q ((temp + (2 ^ 32 - q * v 1 % 2 ^ 32)) % 2 ^ 32)

/-- The loop that takes `q` times the divisor from the dividend; it returns the
digits, the high half of the last product, and the borrow. -/
def multiplySubtract (q : Nat) (v : Nat → Nat) (j : Nat) :
    Nat → (Nat → Nat) → Nat → Nat → (Nat → Nat) × Nat × Nat
  | 0, u, k, borrow => (u, k, borrow)
  | i + 1, u, k, borrow =>
    let tmp := (q * v (i + 1) + k + borrow) % 2 ^ 32
    let md := tmp % 2 ^ 16
    let digit := u (j + (i + 1))
    multiplySubtract q v j i
      (Function.update u (j + (i + 1)) ((digit + 2 ^ 16 - md) % 2 ^ 16))
      (tmp / 2 ^ 16) (if md > digit then 1 else 0)

/-- The loop that adds the divisor back when the estimate was one too big. -/
def addBack (v : Nat → Nat) (j : Nat) : Nat → (Nat → Nat) → Nat → (Nat → Nat) × Nat
  | 0, u, borrow => (u, borrow)
  | i + 1, u, borrow =>
    let tmp := v (i + 1) + u (j + (i + 1)) + borrow
    addBack v j i (Function.update u (j + (i + 1)) (tmp % 2 ^ 16)) (tmp / 2 ^ 16)

/-- The digit of the quotient at place `j`, and the digits that remain. -/
def divideDigit (v : Nat → Nat) (maxv j : Nat) (u : Nat → Nat) : Nat × (Nat → Nat) :=
  if u j = 0 ∧ u (j + 1) < v 1 then (0, u)
  else
    let q := estimate u v j
    if q = 0 then (0, u)
    else
      let (u, k, borrow) := multiplySubtract q v j maxv u 0 0
      let k := k + borrow
      let tooBig := u j < k
      let u := Function.update u j ((u j + 2 ^ 32 - k) % 2 ^ 16)
      if tooBig then
        let (u, borrow) := addBack v j maxv u 0
        (q - 1, Function.update u j ((u j + borrow) % 2 ^ 16))
      else (q, u)

def lastDigit (v : Nat → Nat) : Nat → Nat
  | 0 => 0
  | maxv + 1 => if v (maxv + 1) = 0 then lastDigit v maxv else maxv + 1

def dividend (e1 : FltArith) (index : Nat) : Nat :=
  if index = 4 then e1.m2.toNat % 2 * 2 ^ 15
  else fltSplit (fltB64Sft e1.mantissa 1) index

def divisor (e2 : FltArith) : Nat → Nat
  | 0 => 0
  | index + 1 => fltSplit e2.mantissa index

def quotientWords (e1 e2 : FltArith) : FltMantissa :=
  let v := divisor e2
  let maxv := lastDigit v 4
  let (q0, u) := divideDigit v maxv 0 (dividend e1)
  let (q1, u) := divideDigit v maxv 1 u
  let (q2, u) := divideDigit v maxv 2 u
  let (q3, _) := divideDigit v maxv 3 u
  ⟨UInt32.ofNat (q0 * 2 ^ 16) ||| UInt32.ofNat q1, UInt32.ofNat (q2 * 2 ^ 16) ||| UInt32.ofNat q3⟩

def fltDiv (e1 e2 : FltArith) : FltArith × FltStatus :=
  let sign := e1.sign ^^ e2.sign
  if e2.m1 ||| e2.m2 = 0 then (⟨sign, extMax, ⟨0x80000000, 0⟩⟩, .div0)
  else if e1.m1 ||| e1.m2 = 0 then (zero, .ok)
  else fltChk (fltNrm ⟨sign, toShort (e1.exp - e2.exp), quotientWords e1 e2⟩) .ok

theorem fltDiv_delivered (e1 : FltArith) {e2 : FltArith}
    (nonzero : e2.mantissa ≠ FltMantissa.zero) : Delivered (fltDiv e1 e2) := by
  unfold fltDiv
  rw [if_neg (mt FltMantissa.or_eq_zero.mp nonzero)]
  split
  next => exact delivered_zero _
  next => exact fltChk_fltNrm_delivered _ _

end AckFormal.Flt.Division
