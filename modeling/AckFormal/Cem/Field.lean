import AckFormal.Cem.Cstoper

/-!
# Assignments to bit-fields

`eval_field` emits the EM code of an assignment to a bit-field, `field2arith` that of reading one.
The code runs on a stack of words and pointers.
-/

namespace AckFormal.Cem.Field

open Cstoper
open BitVec (eq_of_getLsbD_eq getLsbD_and getLsbD_not getLsbD_of_ge getLsbD_or getLsbD_setWidth
  getLsbD_shiftLeft setWidth_eq setWidth_setWidth_of_le)

/-- `struct field`; the mask is made by `add_field`. -/
structure Fd where
  fdShift : Nat
  fdWidth : Nat

def Fd.fdMask (fd : Fd) : BitVec 64 :=
  if 64 ≤ fd.fdWidth then -1 else ((1 : BitVec 64) <<< fd.fdWidth) - 1

/-- EM instructions, for words of `ws` bytes; a constant is an `arith`.  The right operand of the
assignment pushes a word, and the arithmetic of `op=`, with its conversions, replaces the word on
top. -/
inductive Em (ws : Nat) where
  | loc (c : BitVec 64)
  | and
  | ior
  | dup
  | sli
  | slu
  | sri
  | sru
  | cii
  | ciu
  | cui
  | cuu
  | load (address : Nat)
  | store (address : Nat)
  | lvalue (address : Nat)
  | dupPointer
  | storeLocal
  | loadLocal
  | loi
  | sti
  | right (v : BitVec (8 * ws))
  | oper (compute : BitVec (8 * ws) → BitVec (8 * ws))

inductive Cell (ws : Nat) where
  | word (w : BitVec (8 * ws))
  | pointer (address : Nat)

/-- The words in memory, the temporary for an address, and the stack. -/
structure Machine (ws : Nat) where
  mem : Nat → BitVec (8 * ws)
  tmp : Option Nat
  stack : List (Cell ws)

variable {ws : Nat}

def shifted (count : BitVec (8 * ws)) (result : BitVec (8 * ws)) (m : Machine ws)
    (rest : List (Cell ws)) : Option (Machine ws) :=
  if count.toNat < 8 * ws then some { m with stack := .word result :: rest } else none

def extend (size : Nat) (x : BitVec (8 * ws)) : BitVec (8 * ws) :=
  (x.setWidth (8 * size)).signExtend (8 * ws)

def reread (to_ from_ x : BitVec (8 * ws)) (m : Machine ws) (rest : List (Cell ws)) :
    Option (Machine ws) :=
  if to_.toNat = ws ∧ from_.toNat = ws then some { m with stack := .word x :: rest } else none

def Machine.update (m : Machine ws) (address : Nat) (x : BitVec (8 * ws)) : Nat → BitVec (8 * ws) :=
  fun a => if a = address then x else m.mem a

def step (m : Machine ws) : Em ws → Option (Machine ws)
  | .loc c => some { m with stack := .word (c.setWidth _) :: m.stack }
  | .and =>
    match m.stack with
    | .word y :: .word x :: rest => some { m with stack := .word (x &&& y) :: rest }
    | _ => none
  | .ior =>
    match m.stack with
    | .word y :: .word x :: rest => some { m with stack := .word (x ||| y) :: rest }
    | _ => none
  | .dup =>
    match m.stack with
    | .word x :: rest => some { m with stack := .word x :: .word x :: rest }
    | _ => none
  | .sli =>
    match m.stack with
    | .word y :: .word x :: rest => shifted y (x <<< y.toNat) m rest
    | _ => none
  | .slu =>
    match m.stack with
    | .word y :: .word x :: rest => shifted y (x <<< y.toNat) m rest
    | _ => none
  | .sri =>
    match m.stack with
    | .word y :: .word x :: rest => shifted y (x.sshiftRight y.toNat) m rest
    | _ => none
  | .sru =>
    match m.stack with
    | .word y :: .word x :: rest => shifted y (x >>> y.toNat) m rest
    | _ => none
  | .cii =>
    match m.stack with
    | .word t :: .word f :: .word x :: rest =>
      if t.toNat = ws then some { m with stack := .word (extend f.toNat x) :: rest } else none
    | _ => none
  | .ciu =>
    match m.stack with
    | .word t :: .word f :: .word x :: rest => reread t f x m rest
    | _ => none
  | .cui =>
    match m.stack with
    | .word t :: .word f :: .word x :: rest => reread t f x m rest
    | _ => none
  | .cuu =>
    match m.stack with
    | .word t :: .word f :: .word x :: rest => reread t f x m rest
    | _ => none
  | .load address => some { m with stack := .word (m.mem address) :: m.stack }
  | .store address =>
    match m.stack with
    | .word x :: rest => some { m with mem := m.update address x, stack := rest }
    | _ => none
  | .lvalue address => some { m with stack := .pointer address :: m.stack }
  | .dupPointer =>
    match m.stack with
    | .pointer p :: rest => some { m with stack := .pointer p :: .pointer p :: rest }
    | _ => none
  | .storeLocal =>
    match m.stack with
    | .pointer p :: rest => some { m with tmp := some p, stack := rest }
    | _ => none
  | .loadLocal => m.tmp.map fun p => { m with stack := .pointer p :: m.stack }
  | .loi =>
    match m.stack with
    | .pointer p :: rest => some { m with stack := .word (m.mem p) :: rest }
    | _ => none
  | .sti =>
    match m.stack with
    | .pointer p :: .word x :: rest => some { m with mem := m.update p x, stack := rest }
    | _ => none
  | .right v => some { m with stack := .word v :: m.stack }
  | .oper compute =>
    match m.stack with
    | .word x :: rest => some { m with stack := .word (compute x) :: rest }
    | _ => none

def run (m : Machine ws) : List (Em ws) → Option (Machine ws)
  | [] => some m
  | i :: code => (step m i).bind fun m' => run m' code

/-! ## The code that is emitted -/

def arith (n : Nat) : BitVec 64 := BitVec.ofNat 64 n

section Code

variable (ws : Nat) (tp : Tp) (fd : Fd) (simple : Bool) (address : Nat)

def conversion (from_ to_ : Tp) : List (Em ws) :=
  let fromSize := from_.size
  let toSize := if to_.size < ws then ws else to_.size
  (if fromSize ≠ toSize ∨ from_.unsigned ≠ to_.unsigned then
    if from_.unsigned then
      let fromSize := if fromSize < ws then ws else fromSize
      [.loc (arith fromSize), .loc (arith toSize), if to_.unsigned then .cuu else .cui]
    else if to_.unsigned then
      let wide := if fromSize < ws then ws else fromSize
      (if fromSize < ws then [.loc (arith fromSize), .loc (arith ws), .cii] else []) ++
        [.loc (arith wide), .loc (arith toSize), .ciu]
    else [.loc (arith fromSize), .loc (arith toSize), .cii]
  else []) ++
  (if to_.size < ws then
    if to_.unsigned then [.loc (fullMask to_.size), .and]
    else [.loc (arith to_.size), .loc (arith ws), .cii]
  else [])

/-- `word_type` or `uword_type`: the type the arithmetic is done in. -/
def atype : Tp := ⟨tp.unsigned && decide (8 * ws ≤ fd.fdWidth), ws, false⟩

/-- The last part of `store_field`; `tmpvar` says whether the address is in the temporary. -/
def storeInto (tmpvar : Bool) : List (Em ws) :=
  if simple then [.load address, .and, .ior, .store address]
  else
    let into : List (Em ws) := [.loadLocal, .loi, .and, .ior, .loadLocal, .sti]
    if tmpvar then into else .lvalue address :: .storeLocal :: into

def storeField (uns code tmpvar : Bool) : List (Em ws) :=
  let highMask := ~~~fullMask ws
  let masked : List (Em ws) := [.loc fd.fdMask, .and] ++ (if code then [.dup] else [])
  let inverse : BitVec 64 := ~~~((fd.fdMask <<< fd.fdShift) ||| highMask)
  let placed : List (Em ws) :=
    [.loc (arith fd.fdShift), if uns then .slu else .sli, .loc inverse]
  masked ++ placed ++ storeInto ws simple address tmpvar

def loadField : List (Em ws) :=
  if simple then [.load address] else [.lvalue address, .dupPointer, .storeLocal, .loi]

def extract : List (Em ws) :=
  if tp.unsigned then [.loc (arith fd.fdShift), .sru, .loc fd.fdMask, .and]
  else
    let sft := ws * 8 - fd.fdWidth
    [.loc (arith (sft - fd.fdShift)), .sli, .loc (arith sft), .sri]

def signExtension : List (Em ws) :=
  if tp.unsigned then []
  else
    let shift := ws * 8 - fd.fdWidth
    [.loc (arith shift), .sli, .loc (arith shift), .sri]

/-- The assignments: `F = v`, then `F op= v`, `++F` and `--F`, then `F++` and `F--`. -/
inductive Assignment (ws : Nat) where
  | assign (v : BitVec (8 * ws))
  | assop (compute : BitVec (8 * ws) → BitVec (8 * ws))
  | post (compute : BitVec (8 * ws) → BitVec (8 * ws))

/-- `eval_field`; `code` says whether the value of the expression is used. -/
def evalField (code : Bool) (op : Assignment ws) : List (Em ws) :=
  let atype := atype ws tp fd
  let old : List (Em ws) := loadField ws simple address ++ extract ws tp fd
  let dup : List (Em ws) := if code then [.dup] else []
  let stored : List (Em ws) :=
    match op with
    | .assign v =>
      .right v :: conversion ws tp atype ++
        storeField ws fd simple address tp.unsigned code false
    | .assop compute =>
      old ++ [.oper compute] ++ storeField ws fd simple address atype.unsigned code true
    | .post compute =>
      old ++ dup ++ [.oper compute] ++
        storeField ws fd simple address atype.unsigned false true
  let value : List (Em ws) := if code then signExtension ws tp fd ++ conversion ws atype tp else []
  stored ++ value

/-- `field2arith`, and the evaluation of its expression: an unsigned field below a word is shifted
as a signed word. -/
def field2arith : List (Em ws) :=
  (if simple then [.load address] else [.lvalue address, .loi]) ++
  (if tp.unsigned then
    [.loc (arith fd.fdShift), if 8 * ws ≤ fd.fdWidth then .sru else .sri, .loc fd.fdMask, .and]
  else
    let otherBits := ws * 8 - fd.fdWidth
    [.loc (arith (otherBits - fd.fdShift)), .sli, .loc (arith otherBits), .sri])

end Code

/-! ## Reading and writing -/

section Meaning

variable (tp : Tp) (fd : Fd)

def reduce (v : BitVec (8 * ws)) : BitVec (8 * ws) :=
  if tp.unsigned then (v.setWidth fd.fdWidth).setWidth (8 * ws)
  else (v.setWidth fd.fdWidth).signExtend (8 * ws)

def get (word : BitVec (8 * ws)) : BitVec (8 * ws) := reduce tp fd (word >>> fd.fdShift)

def Fd.Inside (i : Nat) : Prop := fd.fdShift ≤ i ∧ i < fd.fdShift + fd.fdWidth

instance (i : Nat) : Decidable (fd.Inside i) := inferInstanceAs (Decidable (_ ∧ _))

def Only (before after : BitVec (8 * ws)) : Prop :=
  ∀ i, ¬ fd.Inside i → after.getLsbD i = before.getLsbD i

def Reads (address : Nat) (m : Machine ws) (value : BitVec (8 * ws)) : Prop :=
  ∀ simple, run m (field2arith ws tp fd simple address) =
    some { m with stack := .word value :: m.stack }

/-- The value that an assignment stores, from the one that is read before. -/
def Assignment.value (old : BitVec (8 * ws)) : Assignment ws → BitVec (8 * ws)
  | .assign v => v
  | .assop compute => compute old
  | .post compute => compute old

/-- The value of the expression, from the ones that are read before and afterwards. -/
def Assignment.result (old new : BitVec (8 * ws)) : Assignment ws → BitVec (8 * ws)
  | .assign _ => new
  | .assop _ => new
  | .post _ => old

/-- What `add_field` accepts for a field, in a word of at most eight bytes. -/
structure Accepted (ws : Nat) : Prop where
  word : ws ≤ 8
  plain : tp.pointer = false
  size : 0 < tp.size ∧ tp.size ≤ ws
  width : 0 < fd.fdWidth ∧ fd.fdWidth ≤ 8 * tp.size
  shift : fd.fdShift + fd.fdWidth ≤ 8 * ws

end Meaning

/-! ## Running the code -/

section Running

variable {mem : Nat → BitVec (8 * ws)} {tmp : Option Nat} {st : List (Cell ws)}

theorem run_append (m : Machine ws) (first second : List (Em ws)) :
    run m (first ++ second) = (run m first).bind fun m' => run m' second := by
  induction first generalizing m with
  | nil => rfl
  | cons i code ih =>
    rw [List.cons_append, run, run, Option.bind_assoc]
    exact congrArg (Option.bind _) (funext fun m' => ih m')

theorem run_step {m m' : Machine ws} {i : Em ws} {code : List (Em ws)}
    (one : step m i = some m') : run m (i :: code) = run m' code :=
  congrArg (Option.bind · fun m' => run m' code) one

theorem run_two {m m' m'' : Machine ws} {first second : List (Em ws)}
    (one : run m first = some m') (two : run m' second = some m'') :
    run m (first ++ second) = some m'' := by
  rw [run_append, one]
  exact two

theorem arith_toNat {n : Nat} (small : n ≤ 64) (positive : 0 < ws) :
    ((arith n).setWidth (8 * ws)).toNat = n := by
  have most : 2 ^ 8 ≤ 2 ^ (8 * ws) := Nat.pow_le_pow_right (by decide) (by omega)
  rw [arith, BitVec.toNat_setWidth, BitVec.toNat_ofNat, Nat.mod_eq_of_lt (by omega),
    Nat.mod_eq_of_lt (by omega)]

variable {tp : Tp} {fd : Fd}

namespace Accepted

variable (accepted : Accepted tp fd ws)
include accepted

theorem positive : 0 < ws :=
  lt_of_lt_of_le accepted.size.1 accepted.size.2

theorem width_le : fd.fdWidth ≤ 8 * ws := by
  have shift := accepted.shift
  omega

theorem shift_arith {n : Nat} (small : n < 8 * ws)
    (result : BitVec (8 * ws)) (m : Machine ws) (rest : List (Cell ws)) :
    shifted ((arith n).setWidth (8 * ws)) result m rest =
      some { m with stack := .word result :: rest } := by
  have word := accepted.word
  rw [shifted, arith_toNat (by omega) accepted.positive, if_pos small]

theorem shift_counted {n : Nat} (small : n < 8 * ws)
    (f : Nat → BitVec (8 * ws)) {m : Machine ws} {rest : List (Cell ws)} :
    shifted ((arith n).setWidth (8 * ws)) (f ((arith n).setWidth (8 * ws)).toNat) m rest =
      some { m with stack := .word (f n) :: rest } := by
  have word := accepted.word
  rw [accepted.shift_arith small, arith_toNat (by omega) accepted.positive]

end Accepted

/-! ### Masks -/

theorem fdMask_getLsbD (fd : Fd) (i : Nat) :
    fd.fdMask.getLsbD i = (decide (i < 64) && decide (i < fd.fdWidth)) := by
  unfold Fd.fdMask
  split
  case isTrue large =>
    have all : (-1 : BitVec 64) = BitVec.allOnes 64 := by decide
    rw [all, BitVec.getLsbD_allOnes]
    by_cases below : i < 64
    · have inside : i < fd.fdWidth := by omega
      simp [inside]
    · simp [below]
  case isFalse small =>
    have width : fd.fdWidth < 64 := by omega
    have power : 2 ^ fd.fdWidth < 2 ^ 64 := Nat.pow_lt_pow_right (by decide) width
    have positive := Nat.two_pow_pos fd.fdWidth
    have value : ((1 : BitVec 64) <<< fd.fdWidth - 1).toNat = 2 ^ fd.fdWidth - 1 := by
      have one : ((1 : BitVec 64) <<< fd.fdWidth).toNat = 2 ^ fd.fdWidth := by
        rw [BitVec.toNat_shiftLeft, Nat.shiftLeft_eq]
        exact (congrArg (· % 2 ^ 64) (Nat.one_mul _)).trans (Nat.mod_eq_of_lt power)
      rw [BitVec.toNat_sub, one]
      change (2 ^ 64 - 1 + 2 ^ fd.fdWidth) % 2 ^ 64 = _
      omega
    rw [BitVec.getLsbD, value, Nat.testBit_two_pow_sub_one]
    by_cases inside : i < fd.fdWidth
    · have below : i < 64 := by omega
      simp [below]
    · simp [inside]

theorem mask_getLsbD (accepted : Accepted tp fd ws) (i : Nat) :
    (fd.fdMask.setWidth (8 * ws)).getLsbD i = decide (i < fd.fdWidth) := by
  have word := accepted.word
  have width := accepted.width_le
  rw [getLsbD_setWidth, fdMask_getLsbD]
  by_cases inside : i < fd.fdWidth
  · have below : i < 64 := by omega
    have near : i < 8 * ws := by omega
    simp [below, near]
  · simp [inside]

theorem and_mask (accepted : Accepted tp fd ws) (x : BitVec (8 * ws)) :
    x &&& fd.fdMask.setWidth (8 * ws) = (x.setWidth fd.fdWidth).setWidth (8 * ws) := by
  refine eq_of_getLsbD_eq fun i below => ?_
  rw [getLsbD_and, mask_getLsbD accepted, getLsbD_setWidth, getLsbD_setWidth,
    decide_eq_true below, Bool.true_and, Bool.and_comm]

def clear (ws : Nat) (fd : Fd) : BitVec (8 * ws) :=
  (~~~((fd.fdMask <<< fd.fdShift) ||| ~~~fullMask ws)).setWidth (8 * ws)

theorem fullMask_getLsbD {size : Nat} (small : size ≤ maxSize) (i : Nat) :
    (fullMask size).getLsbD i = decide (i < 8 * size) := by
  rw [BitVec.getLsbD, fullMask_toNat small, Nat.testBit_two_pow_sub_one]

theorem clear_getLsbD (accepted : Accepted tp fd ws) {i : Nat} (below : i < 8 * ws) :
    (clear ws fd).getLsbD i = !decide (fd.Inside i) := by
  have word := accepted.word
  have near : i < 64 := by omega
  rw [clear, getLsbD_setWidth, getLsbD_not, getLsbD_or, getLsbD_not,
    fullMask_getLsbD accepted.word, getLsbD_shiftLeft, fdMask_getLsbD]
  unfold Fd.Inside
  by_cases low : i < fd.fdShift
  · have outside : ¬ fd.fdShift ≤ i := by omega
    simp [below, near, low, outside]
  · have from_ : fd.fdShift ≤ i := by omega
    by_cases high : i - fd.fdShift < fd.fdWidth
    · have inside : i < fd.fdShift + fd.fdWidth := by omega
      have short : i - fd.fdShift < 64 := by omega
      simp [below, from_, high, inside, short]
    · have outside : ¬ i < fd.fdShift + fd.fdWidth := by omega
      simp [below, near, high, outside]

/-! ### The value of a field -/

section

variable (accepted : Accepted tp fd ws) (x : BitVec (8 * ws))
include accepted x

theorem signed_extract :
    (x <<< (ws * 8 - fd.fdWidth - fd.fdShift)).sshiftRight (ws * 8 - fd.fdWidth) =
      ((x >>> fd.fdShift).setWidth fd.fdWidth).signExtend (8 * ws) := by
  rw [Nat.mul_comm ws 8]
  exact shift_extract accepted.shift accepted.width.1 x

theorem signed_extend :
    (x <<< (ws * 8 - fd.fdWidth)).sshiftRight (ws * 8 - fd.fdWidth) =
      (x.setWidth fd.fdWidth).signExtend (8 * ws) := by
  have width := accepted.width_le
  exact shift_back (by omega) accepted.width.1 x

/-- The arithmetic shift of a field that does not fill its word leaves the bits of the field. -/
theorem and_mask_sri :
    x.sshiftRight fd.fdShift &&& fd.fdMask.setWidth (8 * ws) =
      ((x >>> fd.fdShift).setWidth fd.fdWidth).setWidth (8 * ws) := by
  have shift := accepted.shift
  rw [and_mask accepted]
  congr 1
  refine eq_of_getLsbD_eq fun i below => ?_
  have near : fd.fdShift + i < 8 * ws := by omega
  have inside : ¬ 8 * ws ≤ i := by omega
  rw [getLsbD_setWidth, getLsbD_setWidth, BitVec.getLsbD_sshiftRight,
    BitVec.getLsbD_ushiftRight, if_pos near, decide_eq_false inside, Bool.not_false,
    Bool.true_and]

end

section Shifts

variable {n : Nat} {x : BitVec (8 * ws)} {code : List (Em ws)}

variable (accepted : Accepted tp fd ws) (small : n < 8 * ws)
include accepted small

theorem run_sli :
    run ⟨mem, tmp, .word x :: st⟩ (.loc (arith n) :: .sli :: code) =
      run ⟨mem, tmp, .word (x <<< n) :: st⟩ code := by
  have one : step ⟨mem, tmp, .word ((arith n).setWidth _) :: .word x :: st⟩ .sli =
      some ⟨mem, tmp, .word (x <<< n) :: st⟩ := accepted.shift_counted small (x <<< ·)
  exact (run_step rfl).trans (run_step one)

theorem run_slu :
    run ⟨mem, tmp, .word x :: st⟩ (.loc (arith n) :: .slu :: code) =
      run ⟨mem, tmp, .word (x <<< n) :: st⟩ code :=
  run_sli accepted small

theorem run_sri :
    run ⟨mem, tmp, .word x :: st⟩ (.loc (arith n) :: .sri :: code) =
      run ⟨mem, tmp, .word (x.sshiftRight n) :: st⟩ code := by
  have one : step ⟨mem, tmp, .word ((arith n).setWidth _) :: .word x :: st⟩ .sri =
      some ⟨mem, tmp, .word (x.sshiftRight n) :: st⟩ :=
    accepted.shift_counted small (x.sshiftRight ·)
  exact (run_step rfl).trans (run_step one)

theorem run_sru :
    run ⟨mem, tmp, .word x :: st⟩ (.loc (arith n) :: .sru :: code) =
      run ⟨mem, tmp, .word (x >>> n) :: st⟩ code := by
  have one : step ⟨mem, tmp, .word ((arith n).setWidth _) :: .word x :: st⟩ .sru =
      some ⟨mem, tmp, .word (x >>> n) :: st⟩ := accepted.shift_counted small (x >>> ·)
  exact (run_step rfl).trans (run_step one)

end Shifts

section

variable (accepted : Accepted tp fd ws)
include accepted

theorem run_shifts {a b : Nat} (first : a < 8 * ws)
    (second : b < 8 * ws) (x : BitVec (8 * ws)) :
    run ⟨mem, tmp, .word x :: st⟩ [.loc (arith a), .sli, .loc (arith b), .sri] =
      some ⟨mem, tmp, .word ((x <<< a).sshiftRight b) :: st⟩ := by
  rw [run_sli accepted first, run_sri accepted second]
  rfl

theorem run_extract (x : BitVec (8 * ws)) :
    run ⟨mem, tmp, .word x :: st⟩ (extract ws tp fd) =
      some ⟨mem, tmp, .word (get tp fd x) :: st⟩ := by
  have shift := accepted.shift
  have width := accepted.width
  unfold extract get reduce
  cases tp.unsigned with
  | true =>
    rw [if_pos rfl, if_pos rfl, run_sru accepted (by omega), ← and_mask accepted]
    rfl
  | false =>
    rw [if_neg Bool.false_ne_true, if_neg Bool.false_ne_true, ← signed_extract accepted]
    exact run_shifts accepted (by omega) (by omega) x

theorem reduce_low (x : BitVec (8 * ws)) :
    (reduce tp fd x).setWidth fd.fdWidth = x.setWidth fd.fdWidth := by
  have most := accepted.width_le
  unfold reduce
  cases tp.unsigned with
  | true => rw [if_pos rfl, setWidth_setWidth_of_le _ most, setWidth_eq]
  | false => rw [if_neg Bool.false_ne_true, setWidth_signExtend most]

theorem and_mask_low (x : BitVec (8 * ws)) :
    (x &&& fd.fdMask.setWidth _).setWidth fd.fdWidth = x.setWidth fd.fdWidth := by
  rw [and_mask accepted, setWidth_setWidth_of_le _ accepted.width_le, setWidth_eq]

end

theorem reduce_congr {v w : BitVec (8 * ws)}
    (same : v.setWidth fd.fdWidth = w.setWidth fd.fdWidth) : reduce tp fd v = reduce tp fd w := by
  unfold reduce
  rw [same]

/-- The sign extension of a value with the low bits of another, which is unsigned already where the
field is. -/
theorem run_signExtension (accepted : Accepted tp fd ws) {x y : BitVec (8 * ws)}
    (low : x.setWidth fd.fdWidth = y.setWidth fd.fdWidth)
    (unsigned : tp.unsigned = true → x = reduce tp fd y) :
    run ⟨mem, tmp, .word x :: st⟩ (signExtension ws tp fd) =
      some ⟨mem, tmp, .word (reduce tp fd y) :: st⟩ := by
  have width := accepted.width
  have most := accepted.width_le
  unfold signExtension
  cases uns : tp.unsigned with
  | true =>
    rw [← unsigned uns]
    rfl
  | false =>
    rw [if_neg Bool.false_ne_true, run_shifts accepted (by omega) (by omega),
      signed_extend accepted, low, reduce, uns]
    rfl

theorem reads (accepted : Accepted tp fd ws) (address : Nat) (m : Machine ws) :
    Reads tp fd address m (get tp fd (m.mem address)) := by
  intro simple
  have shift := accepted.shift
  have width := accepted.width
  have loaded : run m (if simple then [.load address] else [.lvalue address, .loi]) =
      some ⟨m.mem, m.tmp, .word (m.mem address) :: m.stack⟩ := by
    cases simple <;> rfl
  refine run_two loaded ?_
  unfold get reduce
  cases tp.unsigned with
  | true =>
    rw [if_pos rfl, if_pos rfl]
    by_cases full : 8 * ws ≤ fd.fdWidth
    · rw [if_pos full, run_sru accepted (by omega), ← and_mask accepted]
      rfl
    · rw [if_neg full, run_sri accepted (by omega), ← and_mask_sri accepted]
      rfl
  | false =>
    rw [if_neg Bool.false_ne_true, if_neg Bool.false_ne_true, ← signed_extract accepted]
    exact run_shifts accepted (by omega) (by omega) _

/-! ### Conversions -/

section Conversions

variable {x : BitVec (8 * ws)} {code : List (Em ws)}

variable (accepted : Accepted tp fd ws)
include accepted

theorem run_cii {size : Nat} (small : size ≤ ws) :
    run ⟨mem, tmp, .word x :: st⟩ (.loc (arith size) :: .loc (arith ws) :: .cii :: code) =
      run ⟨mem, tmp, .word (extend size x) :: st⟩ code := by
  have word := accepted.word
  have to_ := arith_toNat (n := ws) (by omega) accepted.positive
  have from_ := arith_toNat (n := size) (by omega) accepted.positive
  have one : step ⟨mem, tmp, .word ((arith ws).setWidth _) :: .word ((arith size).setWidth _) ::
      .word x :: st⟩ .cii = some ⟨mem, tmp, .word (extend size x) :: st⟩ := by
    refine (if_pos to_).trans ?_
    rw [from_]
  exact (run_step rfl).trans ((run_step rfl).trans (run_step one))

theorem reread_word {m : Machine ws} {rest : List (Cell ws)} :
    reread ((arith ws).setWidth _) ((arith ws).setWidth _) x m rest =
      some { m with stack := .word x :: rest } := by
  have word := accepted.word
  have size := arith_toNat (n := ws) (by omega) accepted.positive
  exact if_pos ⟨size, size⟩

theorem run_cui :
    run ⟨mem, tmp, .word x :: st⟩ (.loc (arith ws) :: .loc (arith ws) :: .cui :: code) =
      run ⟨mem, tmp, .word x :: st⟩ code := by
  have one : step ⟨mem, tmp, .word ((arith ws).setWidth _) :: .word ((arith ws).setWidth _) ::
      .word x :: st⟩ .cui = some ⟨mem, tmp, .word x :: st⟩ := reread_word accepted
  exact (run_step rfl).trans ((run_step rfl).trans (run_step one))

theorem run_ciu :
    run ⟨mem, tmp, .word x :: st⟩ (.loc (arith ws) :: .loc (arith ws) :: .ciu :: code) =
      run ⟨mem, tmp, .word x :: st⟩ code := by
  have one : step ⟨mem, tmp, .word ((arith ws).setWidth _) :: .word ((arith ws).setWidth _) ::
      .word x :: st⟩ .ciu = some ⟨mem, tmp, .word x :: st⟩ := reread_word accepted
  exact (run_step rfl).trans ((run_step rfl).trans (run_step one))

end Conversions

section

variable (accepted : Accepted tp fd ws)
include accepted

theorem extend_low (x : BitVec (8 * ws)) :
    (extend tp.size x).setWidth fd.fdWidth = x.setWidth fd.fdWidth := by
  have width := accepted.width
  have size := accepted.size
  have wide : 8 * tp.size ≤ 8 * ws := by omega
  have back := setWidth_signExtend wide (x.setWidth (8 * tp.size))
  have low := congrArg (BitVec.setWidth fd.fdWidth) back
  rw [setWidth_setWidth_of_le _ width.2, setWidth_setWidth_of_le _ width.2] at low
  exact low

/-- A value that is reduced to the bits of a signed field is not changed by it. -/
theorem extend_reduced (x : BitVec fd.fdWidth) :
    extend tp.size (x.signExtend (8 * ws)) = x.signExtend (8 * ws) := by
  have width := accepted.width
  have size := accepted.size
  have most : fd.fdWidth ≤ 8 * ws := by omega
  have wide : 8 * tp.size ≤ 8 * ws := by omega
  have part : (x.signExtend (8 * ws)).setWidth (8 * tp.size) = x.signExtend (8 * tp.size) := by
    refine eq_of_getLsbD_eq fun i below => ?_
    have near : i < 8 * ws := by omega
    rw [getLsbD_setWidth, BitVec.getLsbD_signExtend, BitVec.getLsbD_signExtend]
    simp only [near, decide_true, Bool.true_and]
  unfold extend
  refine BitVec.eq_of_toInt_eq ?_
  rw [part, BitVec.toInt_signExtend_of_le wide, BitVec.toInt_signExtend_of_le width.2,
    BitVec.toInt_signExtend_of_le most]

/-- The value before a conversion and after it have the same low bits. -/
theorem run_conversion_to (v : BitVec (8 * ws)) :
    ∃ v', run ⟨mem, tmp, .word v :: st⟩ (conversion ws tp (atype ws tp fd)) =
        some ⟨mem, tmp, .word v' :: st⟩ ∧ v'.setWidth fd.fdWidth = v.setWidth fd.fdWidth := by
  have width := accepted.width
  have size := accepted.size
  have target : ¬ ws < ws := lt_irrefl ws
  unfold conversion atype
  cases uns : tp.unsigned with
  | true =>
    by_cases full : 8 * ws ≤ fd.fdWidth
    · have same : tp.size = ws := by omega
      refine ⟨v, ?_, rfl⟩
      simp [full, same, run]
    · refine ⟨v, ?_, rfl⟩
      have from_ : (if tp.size < ws then ws else tp.size) = ws := by
        split
        · rfl
        · omega
      simp only [full, from_, decide_false, Bool.and_false, target, if_true, if_false, ne_eq,
        Bool.true_eq_false, not_false_eq_true, or_true, List.append_nil, Bool.false_eq_true]
      exact run_cui accepted
  | false =>
    by_cases same : tp.size = ws
    · refine ⟨v, ?_, rfl⟩
      simp [same, run]
    · refine ⟨extend tp.size v, ?_, extend_low accepted v⟩
      simp only [Bool.false_and, target, same, if_true, if_false, ne_eq, not_true_eq_false,
        not_false_eq_true, or_false, List.append_nil, Bool.false_eq_true]
      exact run_cii accepted size.2

/-- The mask of a type leaves a value of an unsigned field alone. -/
theorem and_fullMask (x : BitVec fd.fdWidth) :
    x.setWidth (8 * ws) &&& (fullMask tp.size).setWidth (8 * ws) = x.setWidth (8 * ws) := by
  have width := accepted.width
  have size := accepted.size
  have small : tp.size ≤ maxSize := size.2.trans accepted.word
  refine eq_of_getLsbD_eq fun i below => ?_
  rw [getLsbD_and, getLsbD_setWidth, getLsbD_setWidth, fullMask_getLsbD small]
  by_cases inside : i < fd.fdWidth
  · have near : i < 8 * tp.size := by omega
    simp [below, near]
  · rw [getLsbD_of_ge _ _ (by omega), Bool.and_false, Bool.false_and]

/-- The conversion to the type of the field keeps a value of the field. -/
theorem run_conversion_from (x : BitVec (8 * ws)) :
    run ⟨mem, tmp, .word (reduce tp fd x) :: st⟩ (conversion ws (atype ws tp fd) tp) =
      some ⟨mem, tmp, .word (reduce tp fd x) :: st⟩ := by
  have width := accepted.width
  have size := accepted.size
  have target : ¬ ws < ws := lt_irrefl ws
  have wide : (if tp.size < ws then ws else tp.size) = ws := by
    split
    · rfl
    · omega
  unfold conversion atype reduce
  cases uns : tp.unsigned with
  | true =>
    by_cases full : 8 * ws ≤ fd.fdWidth
    · have same : tp.size = ws := by omega
      simp [full, same, run]
    · have first : run ⟨mem, tmp, .word ((x.setWidth fd.fdWidth).setWidth (8 * ws)) :: st⟩
          [.loc (arith ws), .loc (arith ws), .ciu] =
          some ⟨mem, tmp, .word ((x.setWidth fd.fdWidth).setWidth (8 * ws)) :: st⟩ :=
        run_ciu accepted
      simp only [full, wide, decide_false, Bool.and_false, target, if_true, if_false, ne_eq,
        Bool.false_eq_true, not_false_eq_true, or_true, List.nil_append]
      refine run_two first ?_
      split
      · refine (run_step rfl).trans ((run_step rfl).trans ?_)
        rw [and_fullMask accepted]
        rfl
      · rfl
  | false =>
    simp only [Bool.false_and, wide, if_false, ne_eq, not_true_eq_false, or_self,
      List.nil_append, Bool.false_eq_true]
    split
    · rw [run_cii accepted size.2, extend_reduced accepted]
      rfl
    · rfl

end

/-! ### Storing -/

/-- The word with the bits of the field replaced by the low bits of a value. -/
def put (fd : Fd) (old v : BitVec (8 * ws)) : BitVec (8 * ws) :=
  ((v &&& fd.fdMask.setWidth _) <<< fd.fdShift) ||| (clear ws fd &&& old)

section

variable (accepted : Accepted tp fd ws) (old v : BitVec (8 * ws))
include accepted old v

theorem put_outside :
    Only fd old (put fd old v) := by
  intro i outside
  by_cases below : i < 8 * ws
  · rw [put, getLsbD_or, getLsbD_and, clear_getLsbD accepted below,
      getLsbD_shiftLeft, getLsbD_and, mask_getLsbD accepted,
      decide_eq_false outside]
    unfold Fd.Inside at outside
    by_cases low : i < fd.fdShift
    · simp [low]
    · have high : ¬ i - fd.fdShift < fd.fdWidth := by omega
      simp [high]
  · rw [getLsbD_of_ge _ _ (by omega), getLsbD_of_ge _ _ (by omega)]

theorem put_inside :
    (put fd old v >>> fd.fdShift).setWidth fd.fdWidth = v.setWidth fd.fdWidth := by
  have shift := accepted.shift
  refine eq_of_getLsbD_eq fun i below => ?_
  have near : fd.fdShift + i < 8 * ws := by omega
  have inside : fd.Inside (fd.fdShift + i) := by
    unfold Fd.Inside
    omega
  have place : fd.fdShift + i - fd.fdShift = i := by omega
  rw [getLsbD_setWidth, getLsbD_setWidth, BitVec.getLsbD_ushiftRight, put,
    getLsbD_or, getLsbD_and, clear_getLsbD accepted near, decide_eq_true inside,
    getLsbD_shiftLeft, getLsbD_and, mask_getLsbD accepted, place]
  simp [below, near]

theorem get_put :
    get tp fd (put fd old v) = reduce tp fd v := by
  unfold get reduce
  rw [put_inside accepted]

end

theorem put_congr (accepted : Accepted tp fd ws) (old : BitVec (8 * ws)) {v w : BitVec (8 * ws)}
    (same : v.setWidth fd.fdWidth = w.setWidth fd.fdWidth) : put fd old v = put fd old w := by
  unfold put
  rw [and_mask accepted, and_mask accepted, same]

theorem run_into (simple : Bool) (address : Nat) {tmpvar : Bool}
    (known : simple = false → tmpvar = true → tmp = some address) (c v : BitVec (8 * ws)) :
    ∃ tmp', run ⟨mem, tmp, .word c :: .word v :: st⟩ (storeInto ws simple address tmpvar) =
      some ⟨fun a => if a = address then v ||| (c &&& mem address) else mem a, tmp', st⟩ := by
  cases simple with
  | true => exact ⟨tmp, rfl⟩
  | false =>
    cases tmpvar with
    | true =>
      obtain rfl := known rfl rfl
      exact ⟨some address, rfl⟩
    | false => exact ⟨some address, rfl⟩

/-- `store_field` stores the word, and leaves the masked value where it is asked for. -/
theorem run_storeField (accepted : Accepted tp fd ws) (simple uns code : Bool) (address : Nat)
    {tmpvar : Bool} (known : simple = false → tmpvar = true → tmp = some address)
    (v : BitVec (8 * ws)) :
    ∃ tmp', run ⟨mem, tmp, .word v :: st⟩ (storeField ws fd simple address uns code tmpvar) =
      some ⟨fun a => if a = address then put fd (mem address) v else mem a, tmp',
        (if code then [.word (v &&& fd.fdMask.setWidth _)] else []) ++ st⟩ := by
  have shift := accepted.shift
  have width := accepted.width
  let masked := v &&& fd.fdMask.setWidth (8 * ws)
  let rest : List (Cell ws) := (if code then [.word masked] else []) ++ st
  have first : run ⟨mem, tmp, .word v :: st⟩
      ([.loc fd.fdMask, .and] ++ (if code then [.dup] else [])) =
      some ⟨mem, tmp, .word masked :: rest⟩ := by
    cases code <;> rfl
  have second : run ⟨mem, tmp, .word masked :: rest⟩ [.loc (arith fd.fdShift),
      if uns then .slu else .sli, .loc (~~~((fd.fdMask <<< fd.fdShift) ||| ~~~fullMask ws))] =
      some ⟨mem, tmp, .word (clear ws fd) :: .word (masked <<< fd.fdShift) :: rest⟩ := by
    cases uns with
    | true => exact run_slu accepted (by omega)
    | false => exact run_sli accepted (by omega)
  obtain ⟨tmp', last⟩ := run_into simple address known (clear ws fd) (masked <<< fd.fdShift)
  exact ⟨tmp', run_two (run_two first second) last⟩

theorem run_loadField (simple : Bool) (address : Nat) :
    ∃ tmp', run ⟨mem, tmp, st⟩ (loadField ws simple address) =
        some ⟨mem, tmp', .word (mem address) :: st⟩ ∧
      (simple = false → true = true → tmp' = some address) := by
  cases simple with
  | true => exact ⟨tmp, rfl, fun complex => absurd complex.symm Bool.false_ne_true⟩
  | false => exact ⟨some address, rfl, fun _ _ => rfl⟩

theorem run_result (accepted : Accepted tp fd ws) (code : Bool) {x y : BitVec (8 * ws)}
    (low : x.setWidth fd.fdWidth = y.setWidth fd.fdWidth)
    (unsigned : tp.unsigned = true → x = reduce tp fd y) :
    run ⟨mem, tmp, (if code then [.word x] else []) ++ st⟩
      (if code then signExtension ws tp fd ++ conversion ws (atype ws tp fd) tp else []) =
      some ⟨mem, tmp, (if code then [.word (reduce tp fd y)] else []) ++ st⟩ := by
  cases code with
  | true => exact run_two (run_signExtension accepted low unsigned) (run_conversion_from accepted y)
  | false => rfl

theorem run_masked (accepted : Accepted tp fd ws) (code : Bool) (y : BitVec (8 * ws)) :
    run ⟨mem, tmp, (if code then [.word (y &&& fd.fdMask.setWidth _)] else []) ++ st⟩
      (if code then signExtension ws tp fd ++ conversion ws (atype ws tp fd) tp else []) =
      some ⟨mem, tmp, (if code then [.word (reduce tp fd y)] else []) ++ st⟩ :=
  run_result accepted code (and_mask_low accepted y) fun uns => by
    rw [and_mask accepted, reduce, uns]
    rfl

/-- The word of the field, its value and the operation, before the value is stored. -/
theorem run_operation (accepted : Accepted tp fd ws) (simple dup : Bool) (address : Nat)
    (compute : BitVec (8 * ws) → BitVec (8 * ws)) :
    ∃ tmp', run ⟨mem, tmp, st⟩ (loadField ws simple address ++ extract ws tp fd ++
        (if dup then [.dup] else []) ++ [.oper compute]) =
        some ⟨mem, tmp', .word (compute (get tp fd (mem address))) ::
          ((if dup then [.word (get tp fd (mem address))] else []) ++ st)⟩ ∧
      (simple = false → true = true → tmp' = some address) := by
  obtain ⟨tmp', loaded, known⟩ : ∃ tmp', run ⟨mem, tmp, st⟩ (loadField ws simple address) = _ ∧ _ :=
    run_loadField simple address
  refine ⟨tmp', ?_, known⟩
  rw [List.append_assoc]
  refine run_two (run_two loaded (run_extract accepted _)) ?_
  cases dup <;> rfl

/-- The code of an assignment stores the field and leaves the value of the expression. -/
theorem run_evalField (accepted : Accepted tp fd ws) (simple code : Bool) (address : Nat)
    (op : Assignment ws) :
    ∃ tmp', run ⟨mem, tmp, st⟩ (evalField ws tp fd simple address code op) =
      some ⟨fun a => if a = address then
          put fd (mem address) (op.value (get tp fd (mem address))) else mem a, tmp',
        (if code then [.word (op.result (get tp fd (mem address))
          (reduce tp fd (op.value (get tp fd (mem address)))))] else []) ++ st⟩ := by
  cases op with
  | assign v =>
    obtain ⟨v', converted, low⟩ : ∃ v', run ⟨mem, tmp, .word v :: st⟩ _ = _ ∧ _ :=
      run_conversion_to accepted v
    have known : simple = false → false = true → tmp = some address :=
      fun _ never => absurd never Bool.false_ne_true
    obtain ⟨tmp', stored⟩ : ∃ tmp', run ⟨mem, tmp, .word v' :: st⟩ _ = _ :=
      run_storeField accepted simple tp.unsigned code address known v'
    have pushed : run ⟨mem, tmp, st⟩ ([.right v] ++ conversion ws tp (atype ws tp fd)) =
        some ⟨mem, tmp, .word v' :: st⟩ := run_two rfl converted
    have all := run_two (run_two pushed stored) (run_masked accepted code v')
    rw [put_congr accepted _ low, reduce_congr low] at all
    exact ⟨tmp', all⟩
  | assop compute =>
    obtain ⟨tmp', computed, known⟩ : ∃ tmp', run ⟨mem, tmp, st⟩ _ = _ ∧ _ :=
      run_operation accepted simple false address compute
    obtain ⟨tmp'', stored⟩ : ∃ tmp'', run ⟨mem, tmp', .word _ :: st⟩ _ = _ :=
      run_storeField accepted simple (atype ws tp fd).unsigned code address known
        (compute (get tp fd (mem address)))
    rw [if_neg Bool.false_ne_true, List.append_nil] at computed
    exact ⟨tmp'', run_two (run_two computed stored) (run_masked accepted code _)⟩
  | post compute =>
    let old := get tp fd (mem address)
    let kept : List (Cell ws) := (if code then [.word old] else []) ++ st
    obtain ⟨tmp', computed, known⟩ : ∃ tmp', run ⟨mem, tmp, st⟩ _ = _ ∧ _ :=
      run_operation accepted simple code address compute
    obtain ⟨tmp'', stored⟩ : ∃ tmp'', run ⟨mem, tmp', .word (compute old) :: kept⟩ _ = _ :=
      run_storeField accepted simple (atype ws tp fd).unsigned false address known (compute old)
    have reduced : reduce tp fd old = old := reduce_congr (reduce_low accepted _)
    have last : run ⟨fun a => if a = address then put fd (mem address) (compute old) else mem a,
        tmp'', kept⟩ _ = _ := run_result accepted code rfl fun _ => reduced.symm
    rw [reduced] at last
    exact ⟨tmp'', run_two (run_two computed stored) last⟩

end Running

/-- Assigning to a field stores into its bits only, reading it afterwards gives the value reduced to
these bits, and this or the old value is left where it is asked for. -/
theorem assignment_reads {tp : Tp} {fd : Fd} (accepted : Accepted tp fd ws) (simple code : Bool)
    (address : Nat) (op : Assignment ws) (m : Machine ws) :
    ∃ old m', Reads tp fd address m old ∧
      run m (evalField ws tp fd simple address code op) = some m' ∧
      m'.mem = m.update address (put fd (m.mem address) (op.value old)) ∧
      Only fd (m.mem address) (m'.mem address) ∧
      Reads tp fd address m' (reduce tp fd (op.value old)) ∧
      m'.stack = (if code then [.word (op.result old (reduce tp fd (op.value old)))] else []) ++
        m.stack := by
  let old := get tp fd (m.mem address)
  let word := put fd (m.mem address) (op.value old)
  obtain ⟨tmp', done⟩ : ∃ tmp', run ⟨m.mem, m.tmp, m.stack⟩ _ = _ :=
    run_evalField accepted simple code address op
  have stored : m.update address word address = word := if_pos rfl
  refine ⟨old, _, reads accepted address m, done, rfl, ?_, ?_, rfl⟩
  · change Only fd (m.mem address) (m.update address word address)
    rw [stored]
    exact put_outside accepted _ _
  · have after := reads accepted address ⟨m.update address word, tmp',
      (if code then [.word (op.result old (reduce tp fd (op.value old)))] else []) ++ m.stack⟩
    change Reads tp fd address _ (get tp fd (m.update address word address)) at after
    rw [stored, get_put accepted] at after
    exact after

/-- 25 in a signed field of five bits, in the middle of a word of ones. -/
theorem assignment_reads_minus : ∃ m', run ⟨fun _ => -1, none, []⟩
    (evalField 4 int4 ⟨3, 5⟩ false 7 true (.assign 25)) = some m' ∧
      m'.mem 7 = 0xFFFFFFCF ∧ m'.stack = [.word (-7)] := by
  have accepted : Accepted int4 ⟨3, 5⟩ 4 :=
    ⟨by decide, rfl, by decide, by decide, by decide⟩
  obtain ⟨old, m', -, done, mem, -, -, stack⟩ :=
    assignment_reads accepted false true 7 (.assign 25) ⟨fun _ => -1, none, []⟩
  refine ⟨m', done, ?_, ?_⟩
  · rw [mem]
    exact show @put 4 ⟨3, 5⟩ (-1) 25 = 0xFFFFFFCF by decide
  · have value : @reduce 4 int4 ⟨3, 5⟩ 25 = -7 := by decide
    rw [stack]
    exact congrArg (fun v => [Cell.word v]) value

end AckFormal.Cem.Field
