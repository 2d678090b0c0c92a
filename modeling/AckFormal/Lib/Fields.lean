import Mathlib.Data.BitVec
import Mathlib.GroupTheory.Congruence.Basic

/-!
# Fields

A part of a state that can be read and replaced, and a number that is coded in
it.  The code may hold the number up to a congruence only, and may admit only
some of the numbers as steps; adding two steps one after the other is then
adding their sum.
-/

namespace AckFormal.Lib.Fields

variable {σ β α : Type*}

structure Place (σ β : Type*) where
  read : σ → β
  write : β → σ → σ
  read_write : ∀ b s, read (write b s) = b
  write_read : ∀ s, write (read s) s = s
  write_write : ∀ b c s, write c (write b s) = write c s

structure Coding (β α : Type*) [AddCommMonoid α] where
  decode : β → α
  encode : α → β → β
  same : AddCon α
  step : α → Prop
  encode_decode : ∀ b, encode (decode b) b = b
  encode_encode : ∀ v w b, encode w (encode v b) = encode w b
  encode_congr : ∀ {v w} b, same v w → encode v b = encode w b
  decode_encode : ∀ {d} b, step d → same (decode (encode (decode b + d) b)) (decode b + d)

section Coding

variable [AddCommMonoid α] (c : Coding β α) {d e : α}

namespace Coding

def shift (d : α) (b : β) : β := c.encode (c.decode b + d) b

theorem shift_zero (b : β) : c.shift 0 b = b := by
  unfold shift
  rw [add_zero, c.encode_decode]

theorem shift_shift (b : β) (step : c.step d) : c.shift e (c.shift d b) = c.shift (d + e) b := by
  unfold shift
  rw [c.encode_encode, ← add_assoc]
  exact c.encode_congr b (c.same.add (c.decode_encode b step) (c.same.refl e))

end Coding

def Place.coding (p : Place σ β) : Coding σ α where
  decode s := c.decode (p.read s)
  encode v s := p.write (c.encode v (p.read s)) s
  same := c.same
  step := c.step
  encode_decode s := by rw [c.encode_decode, p.write_read]
  encode_encode v w s := by rw [p.read_write, p.write_write, c.encode_encode]
  encode_congr s same := by rw [c.encode_congr (p.read s) same]
  decode_encode s step := by
    rw [p.read_write]
    exact c.decode_encode (p.read s) step

theorem Place.read_shift (p : Place σ β) (d : α) (s : σ) :
    p.read ((p.coding c).shift d s) = c.shift d (p.read s) :=
  p.read_write _ s

end Coding

/-! ## The bits of a mask -/

section Masks

variable {n : Nat} (mask w v u : BitVec n)

def blend : BitVec n := (w &&& ~~~mask) ||| (v &&& mask)

theorem blend_and : blend mask w v &&& mask = v &&& mask := by
  unfold blend
  ext i bound
  simp only [BitVec.getElem_and, BitVec.getElem_or, BitVec.getElem_not]
  cases mask[i] <;> simp

theorem blend_and_not : blend mask w v &&& ~~~mask = w &&& ~~~mask := by
  unfold blend
  ext i bound
  simp only [BitVec.getElem_and, BitVec.getElem_or, BitVec.getElem_not]
  cases mask[i] <;> simp

theorem blend_insert : blend mask (blend mask w v) u = blend mask w u := by
  show (blend mask w v &&& ~~~mask) ||| (u &&& mask) = _
  rw [blend_and_not]
  rfl

theorem blend_self : blend mask w w = w := by
  unfold blend
  ext i bound
  simp only [BitVec.getElem_and, BitVec.getElem_or, BitVec.getElem_not]
  cases mask[i] <;> simp

variable {mask v u}

theorem blend_congr (equal : v &&& mask = u &&& mask) : blend mask w v = blend mask w u := by
  unfold blend
  rw [equal]

theorem blend_outside {other : BitVec n} (apart : other &&& mask = 0#n) :
    blend mask w v &&& other = w &&& other := by
  have outside : ~~~mask &&& other = other := by
    ext i bound
    have bit := congrArg (fun x => x[i]) apart
    simp only [BitVec.getElem_and, BitVec.getElem_zero, BitVec.getElem_not] at bit ⊢
    cases kept : other[i] with
    | false => rw [Bool.and_false]
    | true =>
      rw [kept, Bool.true_and] at bit
      rw [bit]
      rfl
  rw [← outside, ← BitVec.and_assoc, blend_and_not, BitVec.and_assoc]

end Masks

structure Packing (n : Nat) (α : Type*) [AddCommMonoid α] where
  mask : BitVec n
  decode : BitVec n → α
  encode : α → BitVec n
  same : AddCon α
  step : α → Prop
  masked : ∀ w v, w &&& mask = v &&& mask → decode w = decode v
  encode_decode : ∀ w, encode (decode w) &&& mask = w &&& mask
  encode_congr : ∀ {v u}, same v u → encode v &&& mask = encode u &&& mask
  decode_encode : ∀ {d} w, step d → same (decode (encode (decode w + d))) (decode w + d)

def Packing.coding {n : Nat} [AddCommMonoid α] (p : Packing n α) : Coding (BitVec n) α where
  decode := p.decode
  encode v w := blend p.mask w (p.encode v)
  same := p.same
  step := p.step
  encode_decode w := (blend_congr w (p.encode_decode w)).trans (blend_self p.mask w)
  encode_encode v u w := blend_insert p.mask w _ _
  encode_congr w same := blend_congr w (p.encode_congr same)
  decode_encode w step := by
    rw [p.masked _ _ (blend_and p.mask w _)]
    exact p.decode_encode w step

end AckFormal.Lib.Fields
