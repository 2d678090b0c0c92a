import AckFormal.AckString.Bytes
import Mathlib.Data.Nat.Digits.Lemmas

/-!
# Longs as strings and back

The functions `long2str` and `str2long` of `modules/src/string`, with longs of 64 bits.
`long2str` fills an array of `MAXWIDTH` bytes from its end; a write in front of the array has
no result.
-/

namespace AckFormal.AckString

def MAXWIDTH : Nat := 32

/-- `numbuf` with `p`: the bytes left in front of `p`, and those from `p` on. -/
structure Numbuf where
  room : Nat
  text : List UInt8

def Numbuf.put (b : Numbuf) (c : UInt8) : Option Numbuf :=
  match b.room with
  | 0 => none
  | room + 1 => some ⟨room, c :: b.text⟩

def vec (digit : Int) : UInt8 :=
  if digit < 10 then 0x30 + UInt8.ofNat digit.toNat else 0x41 + UInt8.ofNat (digit - 10).toNat

def putDigits (base : Int) : Nat → Int → List UInt8 → Option Numbuf
  | 0, _, _ => none
  | room + 1, val, text =>
    let text := vec (val.tmod base) :: text
    let val := val.tdiv base
    if val = 0 then some ⟨room, text⟩ else putDigits base room val text

def finish (b : Numbuf) (val : BitVec 64) (base : Int) (sign : Bool) : Option Numbuf :=
  (putDigits base b.room val.toInt b.text).bind fun b => if sign then b.put 0x2d else some b

def shiftDivide (base : Int) (s : Int × BitVec 64) : Int × BitVec 64 :=
  let mod := if s.2.msb then s.1 * 2 + 1 else s.1 * 2
  let val := s.2 <<< 1
  if base ≤ mod then (mod - base, val + 1) else (mod, val)

/-- From the label `overflow` on: the last digit by a division of the unsigned value. -/
def overflow (b : Numbuf) (val : BitVec 64) (base : Int) (sign : Bool) : Option Numbuf :=
  let divided := (shiftDivide base)^[64] (0, val)
  (b.put (vec divided.1)).bind fun b => finish b divided.2 base sign

/-- `long2str`; a base of 0 is not allowed and has no result. -/
def long2str (val : BitVec 64) (base : Int) : Option (List UInt8) :=
  ((Numbuf.put ⟨MAXWIDTH, []⟩ 0).bind fun b =>
    if val = 0 then b.put 0x30
    else if 0 < base then
      if val.msb then
        if -val = val then overflow b val base true else finish b (-val) base true
      else finish b val base false
    else if base < 0 then
      if val.msb then overflow b val (-base) false else finish b val (-base) false
    else none).map Numbuf.text

/-- The digit that a character stands for, `b` for one that is no digit. -/
def value (c : UInt8) (b : Int) : Int :=
  if 0x30 ≤ c ∧ c ≤ 0x39 then (c - 0x30).toNat
  else if 0x41 ≤ c ∧ c ≤ 0x46 then (c - 0x41).toNat + 10
  else if 0x61 ≤ c ∧ c ≤ 0x66 then (c - 0x61).toNat + 10
  else b

def addDigits (base : Int) (l : BitVec 64) : List UInt8 → Option (BitVec 64)
  | [] => none
  | c :: str =>
    let d := value c base
    if d < base then addDigits base (BitVec.ofInt 64 base * l + BitVec.ofInt 64 d) str
    else some l

def str2long : List UInt8 → Int → Option (BitVec 64)
  | 0x2d :: str, base => (addDigits base 0 str).map fun l => -l
  | str, base => addDigits base 0 str

/-! ### Writing digits -/

/-- The characters of a number, the most significant digit first. -/
def chars (b m : Nat) : List UInt8 := (b.digits m).reverse.map fun d : Nat => vec d

variable {b m : Nat} {val : BitVec 64} {base : Int}

theorem chars_of_lt (positive : 0 < m) (small : m < b) : chars b m = [vec m] := by
  rw [chars, Nat.digits_of_lt b m positive.ne' small]
  rfl

theorem chars_succ (base : 1 < b) (positive : 0 < m) :
    chars b m = chars b (m / b) ++ [vec (m % b : Nat)] := by
  simp only [chars, Nat.digits_def' base positive, List.reverse_cons, List.map_append,
    List.map_cons, List.map_nil]

theorem chars_length : (chars b m).length = (b.digits m).length := by
  simp [chars]

theorem chars_length_le_iff {k : Nat} (base : 1 < b) : (chars b m).length ≤ k ↔ m < b ^ k := by
  rw [chars_length]
  exact Nat.digits_length_le_iff base m

/-- The digits of a number that is not zero fit exactly when it has few enough of them. -/
theorem putDigits_eq (base : 1 < b) (positive : 0 < m) (room : Nat) (text : List UInt8) :
    putDigits b room m text =
      if m < b ^ room then some ⟨room - (chars b m).length, chars b m ++ text⟩ else none := by
  induction room generalizing m text with
  | zero =>
    rw [if_neg (by simpa using positive.ne')]
    rfl
  | succ room ih =>
    have rest : (m : Int).tdiv b = (m / b : Nat) := Int.ofNat_tdiv m b
    have digit : (m : Int).tmod b = (m % b : Nat) := Int.ofNat_tmod m b
    rw [putDigits, rest, digit]
    by_cases small : m < b
    · have last : m / b = 0 := Nat.div_eq_of_lt small
      have fits : m < b ^ (room + 1) :=
        small.trans_le (Nat.le_self_pow (Nat.succ_ne_zero room) b)
      rw [if_pos (by rw [last]; rfl), if_pos fits, chars_of_lt positive small,
        Nat.mod_eq_of_lt small]
      rfl
    · have more : 0 < m / b := Nat.div_pos (Nat.le_of_not_lt small) (by omega)
      have same : m / b < b ^ room ↔ m < b ^ (room + 1) := by
        rw [pow_succ, Nat.div_lt_iff_lt_mul (by omega)]
      rw [if_neg (by exact_mod_cast more.ne'), ih more, chars_succ base positive]
      simp only [same, List.length_append, List.length_singleton, Nat.add_sub_add_right,
        List.append_assoc, List.singleton_append]

/-! ### The division of an unsigned value -/

/-- The state before the last `n` turns of a division of `m`: the remainder of the bits shifted
out so far, and their quotient below the bits still to come. -/
structure Dividing (b m n : Nat) (s : Int × BitVec 64) : Prop where
  bound : m < 2 ^ 64
  mod : s.1 = (m / 2 ^ n % b : Nat)
  val : s.2.toNat = m % 2 ^ n * 2 ^ (64 - n) + m / 2 ^ n / b

theorem Dividing.start (val : BitVec 64) : Dividing b val.toNat 64 (0, val) := by
  have small : val.toNat / 2 ^ 64 = 0 := Nat.div_eq_of_lt val.isLt
  refine ⟨val.isLt, ?_, ?_⟩
  · rw [small]
    simp
  · rw [small, Nat.mod_eq_of_lt val.isLt]
    simp

/-- One more bit `t` behind a number whose quotient and remainder are `q` and `r`. -/
theorem div_mod_bit {b h t : Nat} (base : 1 < b) (bit : t < 2) :
    (2 * h + t) / b = 2 * (h / b) + (if b ≤ 2 * (h % b) + t then 1 else 0) ∧
      (2 * h + t) % b =
        if b ≤ 2 * (h % b) + t then 2 * (h % b) + t - b else 2 * (h % b) + t := by
  have remainder := Nat.mod_lt h (show b > 0 by omega)
  have whole := Nat.div_add_mod h b
  rw [Nat.div_mod_unique (by omega)]
  split
  · refine ⟨?_, by omega⟩
    rw [Nat.mul_add, Nat.mul_left_comm]
    omega
  · refine ⟨?_, by omega⟩
    rw [Nat.mul_add, Nat.mul_left_comm]
    omega

/-- One turn brings down one bit, and takes off the divisor if it fits. -/
theorem Dividing.step {b m n : Nat} {s : Int × BitVec 64} (base : 1 < b) (bits : n < 64)
    (dividing : Dividing b m (n + 1) s) : Dividing b m n (shiftDivide b s) := by
  obtain ⟨mod, val⟩ := s
  obtain ⟨bound, modEq, valEq⟩ := dividing
  dsimp only at modEq valEq
  generalize high : m / 2 ^ (n + 1) = h at modEq valEq
  have weights : 2 ^ n * 2 ^ (63 - n) = 2 ^ 63 := by
    rw [← pow_add]
    exact congrArg (2 ^ ·) (show n + (63 - n) = 63 by omega)
  -- the bit that is shifted out, and the bits behind it
  obtain ⟨t, bit, digit, low⟩ : ∃ t, t < 2 ∧ m / 2 ^ n = 2 * h + t ∧
      m % 2 ^ (n + 1) = m % 2 ^ n + 2 ^ n * t := by
    refine ⟨m / 2 ^ n % 2, Nat.mod_lt _ (by decide), ?_, Nat.mod_pow_succ⟩
    rw [← high, pow_succ, ← Nat.div_div_eq_div_mul]
    omega
  obtain ⟨quotient, remainder⟩ := @div_mod_bit b h t base bit
  have room : m % 2 ^ n * 2 ^ (63 - n) + h / b < 2 ^ 63 := by
    have few : h / b < 2 ^ (63 - n) := by
      refine (Nat.div_le_self h b).trans_lt ?_
      rw [← high]
      refine Nat.div_lt_of_lt_mul ?_
      rw [← pow_add]
      exact bound.trans_eq (congrArg (2 ^ ·) (show 64 = n + 1 + (63 - n) by omega))
    have below := Nat.mod_lt m (Nat.two_pow_pos n)
    calc m % 2 ^ n * 2 ^ (63 - n) + h / b < (m % 2 ^ n + 1) * 2 ^ (63 - n) := by
          rw [Nat.add_one_mul]
          omega
      _ ≤ 2 ^ n * 2 ^ (63 - n) := Nat.mul_le_mul_right _ below
      _ = 2 ^ 63 := weights
  have value : val.toNat = 2 ^ 63 * t + (m % 2 ^ n * 2 ^ (63 - n) + h / b) := by
    rw [valEq, low, show 64 - (n + 1) = 63 - n by omega, Nat.add_mul, Nat.mul_right_comm, weights]
    omega
  have scale : m % 2 ^ n * 2 ^ (64 - n) = 2 * (m % 2 ^ n * 2 ^ (63 - n)) := by
    rw [show 64 - n = 63 - n + 1 by omega, pow_succ]
    exact (Nat.mul_assoc ..).symm.trans (Nat.mul_comm ..)
  have shifted : (val <<< 1).toNat = 2 * (m % 2 ^ n * 2 ^ (63 - n) + h / b) := by
    rw [BitVec.toNat_shiftLeft, value, Nat.shiftLeft_eq]
    omega
  have carry : (if val.msb then mod * 2 + 1 else mod * 2) = (2 * (h % b) + t : Nat) := by
    rw [BitVec.msb_eq_decide, value, modEq]
    have cases_ : t = 0 ∨ t = 1 := by omega
    rcases cases_ with rfl | rfl
    · rw [if_neg (by simpa using room)]
      omega
    · rw [if_pos (by simp)]
      omega
  have mods : (b : Int) ≤ (2 * (h % b) + t : Nat) ↔ b ≤ 2 * (h % b) + t := by
    exact_mod_cast Iff.rfl
  unfold shiftDivide
  rw [carry]
  by_cases more : b ≤ 2 * (h % b) + t
  · rw [if_pos more] at quotient remainder
    rw [if_pos (mods.mpr more)]
    refine ⟨bound, ?_, ?_⟩
    · rw [digit, remainder]
      push_cast [more]
      rfl
    · rw [BitVec.toNat_add, shifted, digit, quotient, scale, show (1 : BitVec 64).toNat = 1 from rfl]
      omega
  · rw [if_neg more] at quotient remainder
    rw [if_neg (mt mods.mp more)]
    refine ⟨bound, ?_, ?_⟩
    · rw [digit, remainder]
    · rw [shifted, digit, quotient, scale]
      omega

theorem shiftDivide_64 (base : 1 < b) (val : BitVec 64) :
    ((shiftDivide b)^[64] (0, val)).1 = (val.toNat % b : Nat) ∧
      ((shiftDivide b)^[64] (0, val)).2.toNat = val.toNat / b := by
  have run : ∀ turns, turns ≤ 64 →
      Dividing b val.toNat (64 - turns) ((shiftDivide b)^[turns] (0, val)) := by
    intro turns
    induction turns with
    | zero => exact fun _ => Dividing.start val
    | succ turns ih =>
      intro few
      rw [Function.iterate_succ_apply']
      refine Dividing.step base (by omega) ?_
      rw [show 64 - (turns + 1) + 1 = 64 - turns by omega]
      exact ih (by omega)
  have done := run 64 (Nat.le_refl 64)
  refine ⟨?_, ?_⟩
  · rw [done.mod]
    simp
  · rw [done.val]
    simp [Nat.mod_one]

/-! ### `long2str` -/

theorem put_room {b : Numbuf} {c : UInt8} (space : 0 < b.room) :
    b.put c = some ⟨b.room - 1, c :: b.text⟩ := by
  obtain ⟨room, text⟩ := b
  obtain ⟨room, rfl⟩ := Nat.exists_eq_add_one_of_ne_zero (Nat.ne_of_gt space)
  rfl

/-- The text that is left in the array, with the nul behind it. -/
def signed (sign : Bool) (text : List UInt8) : List UInt8 :=
  (if sign then 0x2d :: text else text) ++ [0]

/-- How many digits there is room for besides the nul and the sign. -/
def places (sign : Bool) : Nat := if sign then 30 else 31

/-- Digits and sign from the end of the array on, `tail` of them being there already. -/
theorem finish_eq (base : 1 < b) (positive : 0 < m) (value : val.toInt = m) (sign : Bool)
    (tail : List UInt8) (few : tail.length < 2) :
    (finish ⟨31 - tail.length, tail ++ [0]⟩ val b sign).map Numbuf.text =
      if m < b ^ (places sign - tail.length) then some (signed sign (chars b m ++ tail))
      else none := by
  unfold finish
  rw [value, putDigits_eq base positive]
  cases sign with
  | false =>
    rw [places, if_neg Bool.false_ne_true]
    split
    · simp [signed]
    · rfl
  | true =>
    rw [places, if_pos rfl]
    by_cases fits : m < b ^ (30 - tail.length)
    · have more : m < b ^ (31 - tail.length) :=
        fits.trans_le (Nat.pow_le_pow_right (by omega) (by omega))
      have space := (chars_length_le_iff base).mpr fits
      rw [if_pos more, if_pos fits, Option.bind_some, if_pos rfl, put_room]
      · simp [signed]
      · dsimp only
        omega
    · rw [if_neg fits]
      split
      · next more =>
          have full := mt (chars_length_le_iff base).mp fits
          have exact_ : 31 - tail.length - (chars b m).length = 0 := by omega
          rw [Option.bind_some, if_pos rfl, exact_]
          rfl
      · rfl

theorem overflow_eq (base : 1 < b) (large : b ≤ val.toNat) (sign : Bool) :
    (overflow ⟨31, [0]⟩ val b sign).map Numbuf.text =
      if val.toNat < b ^ places sign then some (signed sign (chars b val.toNat)) else none := by
  obtain ⟨mod, quotient⟩ := shiftDivide_64 base val
  have positive : 0 < val.toNat / b := Nat.div_pos large (by omega)
  have small : val.toNat / b < 2 ^ 63 := by
    rw [Nat.div_lt_iff_lt_mul (by omega)]
    exact val.isLt.trans_le (Nat.mul_le_mul_left (2 ^ 63) base)
  have value : ((shiftDivide b)^[64] (0, val)).2.toInt = (val.toNat / b : Nat) := by
    rw [BitVec.toInt_eq_toNat_of_lt (by rw [quotient]; omega), quotient]
  have places_succ : b ^ places sign = b ^ (places sign - 1) * b := by
    cases sign <;> rfl
  have fits : val.toNat / b < b ^ (places sign - 1) ↔ val.toNat < b ^ places sign := by
    rw [places_succ, Nat.div_lt_iff_lt_mul (by omega)]
  have finished := finish_eq base positive value sign [vec (val.toNat % b : Nat)] (by simp)
  simp only [List.length_singleton, fits, ← chars_succ base (show 0 < val.toNat by omega)]
    at finished
  rw [overflow, put_room (by decide), mod]
  exact finished

def magnitude (val : BitVec 64) (base : Int) : Nat :=
  if 0 < base then val.toInt.natAbs else val.toNat

def negative (val : BitVec 64) (base : Int) : Bool := decide (0 < base) && val.msb

/-- The digits, with the sign and the nul, fit in the 32 bytes of the array. -/
def Fits (val : BitVec 64) (base : Int) : Prop :=
  magnitude val base < base.natAbs ^ places (negative val base)

instance (val : BitVec 64) (base : Int) : Decidable (Fits val base) :=
  inferInstanceAs (Decidable (_ < _))

theorem toInt_cases (val : BitVec 64) :
    (val.msb = true ∧ 2 ^ 63 ≤ val.toNat ∧ val.toInt = val.toNat - 2 ^ 64) ∨
      (val.msb = false ∧ val.toNat < 2 ^ 63 ∧ val.toInt = val.toNat) := by
  rw [BitVec.toInt_eq_msb_cond, BitVec.msb_eq_decide]
  by_cases top : 2 ^ 63 ≤ val.toNat
  · exact .inl ⟨decide_eq_true top, top, if_pos (decide_eq_true top)⟩
  · refine .inr ⟨decide_eq_false top, Nat.lt_of_not_le top, if_neg ?_⟩
    rw [decide_eq_true_iff]
    exact top

theorem finish_digits (base : 1 < b) (positive : 0 < m) (value : val.toInt = m) (sign : Bool) :
    (finish ⟨31, [0]⟩ val b sign).map Numbuf.text =
      if m < b ^ places sign then some (signed sign (chars b m)) else none := by
  have finished := finish_eq base positive value sign [] (by decide)
  simpa using finished

/-- The digits come out, unless they reach over the array. -/
theorem long2str_eq (nonzero : val ≠ 0) (legal : 2 ≤ base.natAbs ∧ base.natAbs ≤ 16) :
    long2str val base =
      if magnitude val base < base.natAbs ^ places (negative val base) then
        some (signed (negative val base) (chars base.natAbs (magnitude val base)))
      else none := by
  have start : Numbuf.put ⟨MAXWIDTH, []⟩ 0 = some ⟨31, [0]⟩ := rfl
  have positive : 0 < val.toNat :=
    Nat.pos_of_ne_zero fun zero => nonzero (BitVec.eq_of_toNat_eq zero)
  unfold long2str
  rw [start, Option.bind_some, if_neg nonzero]
  rcases Int.lt_or_gt_of_ne (show base ≠ 0 by omega) with below | above
  · have notAbove : ¬0 < base := by omega
    have number : magnitude val base = val.toNat := if_neg notAbove
    have sign : negative val base = false := by simp [negative, notAbove]
    have opposite : -base = (base.natAbs : Int) := by omega
    rw [if_neg notAbove, if_pos below, opposite, number, sign]
    rcases toInt_cases val with ⟨top, large, value⟩ | ⟨top, small, value⟩
    · rw [if_pos top]
      exact overflow_eq legal.1 (by omega) false
    · rw [if_neg (by rw [top]; exact Bool.false_ne_true)]
      exact finish_digits legal.1 positive value false
  · have number : magnitude val base = val.toInt.natAbs := if_pos above
    have sign : negative val base = val.msb := by simp [negative, above]
    have same : base = (base.natAbs : Int) := by omega
    rw [if_pos above, number, sign, same, Int.natAbs_natCast]
    rcases toInt_cases val with ⟨top, large, value⟩ | ⟨top, small, value⟩
    · rw [if_pos top, top]
      have opposite : (-val).toNat = 2 ^ 64 - val.toNat := by
        exact Nat.mod_eq_of_lt (by omega)
      by_cases least : -val = val
      · rw [least] at opposite
        rw [if_pos least, show val.toInt.natAbs = val.toNat by omega]
        exact overflow_eq legal.1 (by omega) true
      · have other : (-val).toNat ≠ val.toNat := fun same => least (BitVec.eq_of_toNat_eq same)
        rw [if_neg least]
        refine finish_digits legal.1 (by omega) ?_ true
        rw [BitVec.toInt_eq_toNat_of_lt (by omega), opposite]
        omega
    · rw [if_neg (by rw [top]; exact Bool.false_ne_true), top,
        show val.toInt.natAbs = val.toNat by omega]
      exact finish_digits legal.1 positive value false

/-! ### `str2long` -/

theorem value_vec (d : Fin 16) (b : Int) : value (vec (d : Nat)) b = (d : Nat) := by
  have facts : ∀ d : Fin 16,
      (0x30 ≤ vec (d : Nat) ∧ vec (d : Nat) ≤ 0x39 ∧ (vec (d : Nat) - 0x30).toNat = d) ∨
      ¬(0x30 ≤ vec (d : Nat) ∧ vec (d : Nat) ≤ 0x39) ∧ 0x41 ≤ vec (d : Nat) ∧
        vec (d : Nat) ≤ 0x46 ∧ (vec (d : Nat) - 0x41).toNat + 10 = d := by decide
  unfold value
  rcases facts d with ⟨low, high, digit⟩ | ⟨other, low, high, digit⟩
  · rw [if_pos ⟨low, high⟩, digit]
  · rw [if_neg other, if_pos ⟨low, high⟩]
    exact_mod_cast digit

theorem addDigits_chars (small : b ≤ 16) (l : BitVec 64) (ds : List Nat) (digits : ∀ d ∈ ds, d < b) :
    addDigits b l (ds.map (fun d : Nat => vec d) ++ [0]) =
      some (ds.foldl (fun l (d : Nat) => BitVec.ofInt 64 b * l + BitVec.ofInt 64 d) l) := by
  induction ds generalizing l with
  | nil =>
    rw [List.map_nil, List.nil_append, addDigits, show value 0 b = b from rfl,
      if_neg (Int.lt_irrefl _)]
    rfl
  | cons d ds ih =>
    have small_ : d < b := digits d List.mem_cons_self
    have digit : value (vec d) b = d := value_vec ⟨d, by omega⟩ b
    rw [List.map_cons, List.cons_append, addDigits, digit, if_pos (by exact_mod_cast small_),
      ih _ fun e member => digits e (List.mem_cons_of_mem d member)]
    rfl

/-- Reading the digits of a number gives the number back, as far as a long holds it. -/
theorem addDigits_number {b m : Nat} (base : 1 < b) (small : b ≤ 16) :
    addDigits b 0 (chars b m ++ [0]) = some (BitVec.ofNat 64 m) := by
  have digits : ∀ d ∈ (b.digits m).reverse, d < b :=
    fun d member => Nat.digits_lt_base base (List.mem_reverse.mp member)
  have number : ∀ ds : List Nat,
      ds.reverse.foldl (fun l (d : Nat) => BitVec.ofInt 64 b * l + BitVec.ofInt 64 d) 0 =
        BitVec.ofNat 64 (Nat.ofDigits b ds) := by
    intro ds
    induction ds with
    | nil => rfl
    | cons d ds ih =>
      rw [List.reverse_cons, List.foldl_append, ih, List.foldl_cons, List.foldl_nil,
        Nat.ofDigits_cons, BitVec.ofInt_natCast, BitVec.ofInt_natCast, Nat.add_comm,
        BitVec.ofNat_add, BitVec.ofNat_mul]
  rw [chars, addDigits_chars small 0 _ digits, number, Nat.ofDigits_digits]

theorem chars_head (base : 1 < b) (small : b ≤ 16) (positive : 0 < m) :
    ∃ (d : Fin 16) (rest : List UInt8), chars b m = vec (d : Nat) :: rest := by
  cases digits : (b.digits m).reverse with
  | nil =>
    have none_ := List.reverse_eq_nil_iff.mp digits
    exact absurd (Nat.digits_eq_nil_iff_eq_zero.mp none_) positive.ne'
  | cons d ds =>
    have member : d ∈ b.digits m := List.mem_reverse.mp (digits ▸ List.mem_cons_self)
    have digit := Nat.digits_lt_base base member
    exact ⟨⟨d, by omega⟩, ds.map fun e : Nat => vec e, by rw [chars, digits]; rfl⟩

theorem str2long_digit (d : Fin 16) (rest : List UInt8) (base : Int) :
    str2long (vec (d : Nat) :: rest) base = addDigits base 0 (vec (d : Nat) :: rest) := by
  have facts : ∀ d : Fin 16, vec (d : Nat) ≠ 0x2d := by decide
  rw [str2long]
  intro str same
  exact facts d (List.cons.inj same).1

theorem str2long_signed (base : 1 < b) (small : b ≤ 16) (positive : 0 < m) (sign : Bool) :
    str2long (signed sign (chars b m)) b =
      some (if sign then -BitVec.ofNat 64 m else BitVec.ofNat 64 m) := by
  cases sign with
  | true =>
    show (addDigits b 0 (chars b m ++ [0])).map _ = _
    rw [addDigits_number base small]
    rfl
  | false =>
    obtain ⟨d, rest, head⟩ := chars_head base small positive
    have number := @addDigits_number b m base small
    rw [head] at number
    rw [signed, if_neg Bool.false_ne_true, head, if_neg Bool.false_ne_true]
    exact (str2long_digit d _ b).trans number

theorem signed_magnitude (val : BitVec 64) (base : Int) :
    (if negative val base then -BitVec.ofNat 64 (magnitude val base)
      else BitVec.ofNat 64 (magnitude val base)) = val := by
  by_cases above : 0 < base
  · have number : magnitude val base = val.toInt.natAbs := if_pos above
    have sign : negative val base = val.msb := by simp [negative, above]
    rw [number, sign]
    apply BitVec.eq_of_toNat_eq
    rcases toInt_cases val with ⟨top, large, value⟩ | ⟨top, small, value⟩
    · rw [if_pos top, BitVec.toNat_neg, BitVec.toNat_ofNat]
      omega
    · rw [if_neg (by rw [top]; exact Bool.false_ne_true), BitVec.toNat_ofNat]
      omega
  · have number : magnitude val base = val.toNat := if_neg above
    have sign : negative val base = false := by simp [negative, above]
    rw [number, sign, if_neg Bool.false_ne_true, BitVec.ofNat_toNat, BitVec.setWidth_eq]

theorem long2str_roundtrip (legal : 2 ≤ base.natAbs ∧ base.natAbs ≤ 16) :
    (long2str val base).bind (str2long · base.natAbs) = some val ↔ Fits val base := by
  by_cases zero : val = 0
  · subst zero
    have fits : Fits 0 base := by
      rw [Fits, show magnitude 0 base = 0 by simp [magnitude]]
      exact Nat.pow_pos (by omega)
    refine iff_of_true ?_ fits
    have read := addDigits_chars legal.2 0 [0] (by simp; omega)
    refine (str2long_digit 0 [0] base.natAbs).trans (read.trans ?_)
    simp
  · have positive : 0 < magnitude val base := by
      have same := signed_magnitude val base
      by_contra none_
      rw [Nat.eq_zero_of_not_pos none_] at same
      refine zero ?_
      rw [← same]
      split <;> rfl
    rw [long2str_eq zero legal]
    by_cases fits : magnitude val base < base.natAbs ^ places (negative val base)
    · refine iff_of_true ?_ fits
      rw [if_pos fits, Option.bind_some, str2long_signed legal.1 legal.2 positive, signed_magnitude]
    · refine iff_of_false ?_ fits
      rw [if_neg fits]
      nofun

/-- `str2long` does not know of negative bases: it takes no character for a digit. -/
theorem str2long_negative (below : base < 0) {str : List UInt8}
    (read : str2long str base = some val) : val = 0 := by
  have digits : ∀ c, ¬value c base < base := by
    intro c
    unfold value
    all_goals omega
  have stops : ∀ {str : List UInt8} {l : BitVec 64}, addDigits base 0 str = some l → l = 0 := by
    intro str l added
    cases str with
    | nil => exact nomatch added
    | cons c str =>
      rw [addDigits, if_neg (digits c)] at added
      exact (Option.some.inj added).symm
  unfold str2long at read
  split at read
  · obtain ⟨l, added, same⟩ := Option.map_eq_some_iff.mp read
    rw [← same, stops added]
    rfl
  · exact stops read

/-- Bytes come back from their string, with the nul counted; a long comes back from its digits
exactly when these fit in the array of `long2str`, read in the base without the sign that asks
for the unsigned form. -/
theorem conversions_iff (b : List UInt8) (val : BitVec 64) (base : Int)
    (legal : 2 ≤ base.natAbs ∧ base.natAbs ≤ 16) :
    str2bts (bts2str b) = some (b ++ [0], b.length + 1) ∧
      ((long2str val base).bind (str2long · base.natAbs) = some val ↔ Fits val base) ∧
      (base < 0 → (long2str val base).bind (str2long · base) = some val → val = 0) := by
  refine ⟨str2bts_bts2str b, long2str_roundtrip legal, ?_⟩
  intro below read
  obtain ⟨str, -, read⟩ := Option.bind_eq_some_iff.mp read
  exact str2long_negative below read

/-- The bytes of a backslash and a nul, and the largest number of 31 binary digits. -/
theorem conversions_example :
    str2bts (bts2str [0x5c, 0]) = some ([0x5c, 0, 0], 3) ∧
      (long2str 0x7fffffff 2).bind (str2long · 2) = some 0x7fffffff :=
  have both := conversions_iff [0x5c, 0] 0x7fffffff 2 (by decide)
  ⟨both.1, both.2.1.mpr (by decide)⟩

/-- Two to the power 31 has 32 binary digits: there is no room for the nul. -/
theorem long2str_overrun :
    ¬(long2str 0x80000000 2).bind (str2long · 2) = some 0x80000000 := by
  rw [show long2str 0x80000000 2 = none by decide]
  nofun

end AckFormal.AckString
