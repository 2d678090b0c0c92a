import AckFormal.Opt.Lines
import Mathlib.Data.Int.ModEq
import Mathlib.Tactic.Ring

/-!
# A stack of bytes

The meaning of the stack and arithmetic instructions that the peephole optimizer puts in the
place of a multiplication.  The top of the stack is the head of a list of bytes; in which order a
number lies in its bytes is left to the machine.  An instruction that takes more bytes than there
are, and a shift by as many bits as its operand has or more, have no meaning.
-/

namespace AckFormal.Opt.ByteStack

def lowBytes : Nat → Nat → List UInt8
  | 0, _ => []
  | k + 1, n => UInt8.ofNat n :: lowBytes k (n / 256)

def lowValue : List UInt8 → Nat
  | [] => 0
  | b :: l => b.toNat + 256 * lowValue l

/-- How a machine keeps a number in some bytes. -/
structure ByteOrder where
  bytes : Nat → Nat → List UInt8
  value : List UInt8 → Nat
  length_bytes : ∀ k n, (bytes k n).length = k
  value_bytes : ∀ k n, value (bytes k n) = n % 256 ^ k
  bytes_value : ∀ l, bytes l.length (value l) = l

def littleEndian : ByteOrder where
  bytes := lowBytes
  value := lowValue
  length_bytes := by
    intro k
    induction k with
    | zero => exact fun _ => rfl
    | succ k ih => exact fun n => congrArg (· + 1) (ih (n / 256))
  value_bytes := by
    intro k
    induction k with
    | zero => exact fun n => (Nat.mod_one n).symm
    | succ k ih =>
      intro n
      have low : (UInt8.ofNat n).toNat = n % 256 := rfl
      rw [lowBytes, lowValue, low, ih, Nat.pow_succ', Nat.mod_mul]
  bytes_value := by
    intro l
    induction l with
    | nil => rfl
    | cons b l ih =>
      have small := b.toNat_lt
      have low : UInt8.ofNat (b.toNat + 256 * lowValue l) = b := by
        refine UInt8.toNat.inj ?_
        have number : (UInt8.ofNat (b.toNat + 256 * lowValue l)).toNat =
            (b.toNat + 256 * lowValue l) % 256 := rfl
        rw [number]
        omega
      have high : (b.toNat + 256 * lowValue l) / 256 = lowValue l := by omega
      rw [List.length_cons, lowValue, lowBytes, low, high, ih]

abbrev Stack := List UInt8

def pop (k : Nat) (st : Stack) : Option (List UInt8 × Stack) :=
  if k ≤ st.length then some (st.take k, st.drop k) else none

namespace ByteOrder

variable (order : ByteOrder)

def word (k : Nat) (z : Int) : List UInt8 := order.bytes k (z % 256 ^ k).toNat

/-- One instruction, on a machine with words of `wordsize` bytes. -/
def step (wordsize : Nat) (lp : Line) (st : Stack) : Option Stack :=
  match lp with
  | ⟨.op .op_loc, .OPMINI n⟩ => some (order.word wordsize n ++ st)
  | ⟨.op .op_ldc, .OPMINI n⟩ => some (order.word (2 * wordsize) n ++ st)
  | ⟨.op .op_dup, .OPMINI k⟩ => do
      let (x, _) ← pop k.toNat st
      some (x ++ st)
  | ⟨.op .op_asp, .OPMINI k⟩ => do
      let (_, st) ← pop k.toNat st
      some st
  | ⟨.op .op_exg, .OPMINI k⟩ => do
      let (x, st) ← pop k.toNat st
      let (y, st) ← pop k.toNat st
      some (y ++ x ++ st)
  | ⟨.op .op_adu, .OPMINI k⟩ => do
      let (y, st) ← pop k.toNat st
      let (x, st) ← pop k.toNat st
      some (order.word k.toNat (order.value x + order.value y) ++ st)
  | ⟨.op .op_sbu, .OPMINI k⟩ => do
      let (y, st) ← pop k.toNat st
      let (x, st) ← pop k.toNat st
      some (order.word k.toNat (order.value x - order.value y) ++ st)
  | ⟨.op .op_slu, .OPMINI k⟩ => do
      let (count, st) ← pop wordsize st
      let (x, st) ← pop k.toNat st
      if order.value count < 8 * k.toNat then
        some (order.word k.toNat (order.value x * 2 ^ order.value count) ++ st)
      else none
  | _ => none

def exec (wordsize : Nat) : List Line → Stack → Option Stack
  | [], st => some st
  | lp :: rest, st => do
      let st ← order.step wordsize lp st
      exec wordsize rest st

/-! ### Words -/

@[simp] theorem length_word (k : Nat) (z : Int) : (order.word k z).length = k :=
  order.length_bytes k _

theorem value_word (k : Nat) (z : Int) : (order.value (order.word k z) : Int) = z % 256 ^ k := by
  have pos : (0 : Int) < 256 ^ k := Int.pow_pos (by decide)
  have low := Int.emod_nonneg z (Int.ne_of_gt pos)
  rw [word, order.value_bytes]
  push_cast
  rw [Int.toNat_of_nonneg low, Int.emod_emod_of_dvd _ (Int.dvd_refl _)]

theorem word_congr {k : Nat} {z z' : Int} (same : z ≡ z' [ZMOD 256 ^ k]) :
    order.word k z = order.word k z' := by
  rw [word, word, same]

theorem value_modEq (k : Nat) (z : Int) :
    (order.value (order.word k z) : Int) ≡ z [ZMOD 256 ^ k] := by
  rw [value_word]
  exact Int.mod_modEq z _

theorem word_value (l : List UInt8) : order.word l.length (order.value l) = l := by
  have same := order.value_bytes l.length (order.value l)
  rw [order.bytes_value] at same
  have number : ((order.value l : Int) % 256 ^ l.length).toNat = order.value l := by
    exact_mod_cast congrArg Int.toNat (congrArg (Nat.cast (R := Int)) same.symm)
  rw [word, number, order.bytes_value]

/-! ### Instructions on words -/

theorem pop_append {k : Nat} {x : List UInt8} (length : x.length = k) (st : Stack) :
    pop k (x ++ st) = some (x, st) := by
  subst length
  simp [pop]

theorem exec_append (wordsize : Nat) (first second : List Line) (st : Stack) :
    order.exec wordsize (first ++ second) st =
      (order.exec wordsize first st).bind (order.exec wordsize second) := by
  induction first generalizing st with
  | nil => rfl
  | cons lp first ih =>
    rw [List.cons_append, exec, exec]
    cases order.step wordsize lp st with
    | none => rfl
    | some st => exact ih st

variable {order} {wordsize k : Nat} {x y : List UInt8} {st : Stack}

theorem step_loc (n : Int) :
    order.step wordsize ⟨.op .op_loc, .OPMINI n⟩ st = some (order.word wordsize n ++ st) := rfl

theorem step_ldc (n : Int) :
    order.step wordsize ⟨.op .op_ldc, .OPMINI n⟩ st =
      some (order.word (2 * wordsize) n ++ st) := rfl

theorem step_dup (length : x.length = k) :
    order.step wordsize ⟨.op .op_dup, .OPMINI k⟩ (x ++ st) = some (x ++ (x ++ st)) := by
  have turn : order.step wordsize ⟨.op .op_dup, .OPMINI k⟩ (x ++ st) =
      (pop k (x ++ st)).bind fun p => some (p.1 ++ (x ++ st)) := rfl
  simp [turn, pop_append length]

theorem step_asp (length : x.length = k) :
    order.step wordsize ⟨.op .op_asp, .OPMINI k⟩ (x ++ st) = some st := by
  have turn : order.step wordsize ⟨.op .op_asp, .OPMINI k⟩ (x ++ st) =
      (pop k (x ++ st)).bind fun p => some p.2 := rfl
  simp [turn, pop_append length]

/-- An instruction on two operands of `k` bytes; the second lies on top. -/
theorem pop_two {second first : List UInt8} (length : second.length = k)
    (length' : first.length = k) (f : List UInt8 → List UInt8 → Stack → Option Stack) :
    ((pop k (second ++ (first ++ st))).bind fun p => (pop k p.2).bind fun q => f p.1 q.1 q.2) =
      f second first st := by
  rw [pop_append length, Option.bind_some, pop_append length', Option.bind_some]

theorem step_exg (length : x.length = k) (length' : y.length = k) :
    order.step wordsize ⟨.op .op_exg, .OPMINI k⟩ (x ++ (y ++ st)) = some (y ++ (x ++ st)) := by
  rw [← List.append_assoc y]
  exact pop_two length length' fun x y st => some (y ++ x ++ st)

theorem step_adu (a b : Int) :
    order.step wordsize ⟨.op .op_adu, .OPMINI k⟩ (order.word k b ++ (order.word k a ++ st)) =
      some (order.word k (a + b) ++ st) := by
  rw [← order.word_congr ((order.value_modEq k a).add (order.value_modEq k b))]
  exact pop_two (length_word order k b) (length_word order k a) fun y x st =>
    some (order.word k (order.value x + order.value y) ++ st)

theorem step_sbu (a b : Int) :
    order.step wordsize ⟨.op .op_sbu, .OPMINI k⟩ (order.word k b ++ (order.word k a ++ st)) =
      some (order.word k (a - b) ++ st) := by
  rw [← order.word_congr ((order.value_modEq k a).sub (order.value_modEq k b))]
  exact pop_two (length_word order k b) (length_word order k a) fun y x st =>
    some (order.word k (order.value x - order.value y) ++ st)

/-! ### Shifts -/

variable {count : Nat} (fits : count < 256 ^ wordsize)
include fits

theorem value_count :
    order.value (order.word wordsize count) = count := by
  have value := order.value_word wordsize count
  rw [Int.emod_eq_of_lt (by omega) (by exact_mod_cast fits)] at value
  exact_mod_cast value

theorem step_slu :
    order.step wordsize ⟨.op .op_slu, .OPMINI k⟩ (order.word wordsize count ++ st) =
      (pop k st).bind fun p =>
        if count < 8 * k then some (order.word k (order.value p.1 * 2 ^ count) ++ p.2) else none := by
  have turn : order.step wordsize ⟨.op .op_slu, .OPMINI k⟩ (order.word wordsize count ++ st) =
      (pop wordsize (order.word wordsize count ++ st)).bind fun p => (pop k p.2).bind fun q =>
        if order.value p.1 < 8 * k then
          some (order.word k (order.value q.1 * 2 ^ order.value p.1) ++ q.2)
        else none := rfl
  rw [turn, pop_append (length_word order _ _), Option.bind_some, value_count fits]

theorem exec_shift (a : Int) :
    order.exec wordsize [⟨.op .op_loc, .OPMINI count⟩, ⟨.op .op_slu, .OPMINI k⟩]
        (order.word k a ++ st) =
      if count < 8 * k then some (order.word k (a * 2 ^ count) ++ st) else none := by
  have product := order.word_congr ((order.value_modEq k a).mul_right (2 ^ count))
  simp [exec, step_loc, step_slu fits, pop_append (length_word order _ _), product]

theorem exec_overshift (far : 8 * k ≤ count)
    (first second : List Line) :
    order.exec wordsize (first ++ ([⟨.op .op_loc, .OPMINI count⟩, ⟨.op .op_slu, .OPMINI k⟩] ++
      second)) st = none := by
  rw [exec_append]
  cases order.exec wordsize first st with
  | none => rfl
  | some st =>
    have shift : order.step wordsize ⟨.op .op_slu, .OPMINI k⟩
        (order.word wordsize count ++ st) = none := by
      simp only [step_slu fits, if_neg (Nat.not_lt.mpr far), Option.bind_fun_none]
    simp [exec, step_loc, shift]

end ByteOrder

end AckFormal.Opt.ByteStack
