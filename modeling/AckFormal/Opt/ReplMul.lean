import AckFormal.Opt.ByteStack
import Mathlib.Tactic.Linarith

/-!
# Multiplications by a constant

`repl_mul` of `peephole.c` and the loop of `basicblock` that calls it: a constant and a
multiplication become shifts, additions and subtractions.  The runs of ones and zeros of the
constant are taken from its lower end, with the operand shifted along and a sum kept under it.
-/

namespace AckFormal.Opt.ReplMul

open Opt.ByteStack
open Option (bind_eq_bind bind_some)

/-- The word size of the program, and the flags `-m` of the optimizer. -/
structure Options where
  wordsize : Nat
  repl_muls : Nat
  repl_longmuls : Bool

def number : Operand → Option Int
  | .OPSHORT n => some n
  | .OPOFFSET n => some n
  | .OPMINI n => some n
  | _ => none

/-- A new line; the small numbers that it is made with are minis. -/
def newinstr (opcode : Mnem) (val : Int) : Line := ⟨.op opcode, .OPMINI val⟩

/-- `for (n1 = 0; n & 1; n >>= 1) ++n1;`, with a bound for the number of bits -/
def countOnes : Nat → Nat → Nat × Nat
  | 0, n => (0, n)
  | bits + 1, n =>
    if n % 2 = 1 then ((countOnes bits (n / 2)).1 + 1, (countOnes bits (n / 2)).2) else (0, n)

def countZeros : Nat → Nat → Nat × Nat
  | 0, n => (0, n)
  | bits + 1, n =>
    if n % 2 = 0 then ((countZeros bits (n / 2)).1 + 1, (countZeros bits (n / 2)).2) else (0, n)

variable (opt : Options) (sz : Int)

def shift (count : Nat) : List Line := [newinstr .op_loc count, newinstr .op_slu sz]

def fetch : List Line := [newinstr .op_exg sz, newinstr .op_dup (2 * sz), newinstr .op_asp sz]

def addUnder : List Line := fetch sz ++ [newinstr .op_adu sz, newinstr .op_exg sz]

def zero : Line := if sz = opt.wordsize then newinstr .op_loc 0 else newinstr .op_ldc 0

/-- The code for one pair of runs, with the number of shifts and additions in it; `more` tells
that bits are left, `virgin` that there is no sum yet. -/
def group (n1 n0 : Nat) (more virgin : Bool) : List Line × Nat :=
  if n1 = 0 then
    if n0 ≠ 0 then (shift sz n0, 1) else ([], 0)
  else if n1 = 1 then
    let (lines, count) := if virgin then ([newinstr .op_dup sz], 0) else (addUnder sz, 1)
    if more then (lines ++ shift sz (n0 + n1), count + 1) else (lines, count)
  else
    let lines :=
      (if virgin then [newinstr .op_dup sz, zero opt sz, newinstr .op_exg sz] else fetch sz) ++
        [newinstr .op_sbu sz, newinstr .op_exg sz]
    let (lines, count) :=
      if (n1 : Int) ≠ 8 * sz then (lines ++ (shift sz n1 ++ addUnder sz), 3) else (lines, 1)
    if n0 ≠ 0 then (lines ++ shift sz n0, count + 1) else (lines, count)

/-- `while (n)`, with the code, the number of shifts and additions, and `virgin` at the end. -/
def mulLoop : Nat → Nat → Bool → List Line × Nat × Bool
  | 0, _, virgin => ([], 0, virgin)
  | bits + 1, n, virgin =>
    if n = 0 then ([], 0, virgin)
    else
      let (n1, n) := countOnes 64 n
      let (n0, n) := if n ≠ 0 then countZeros 64 n else (0, n)
      let (lines, count) := group opt sz n1 n0 (decide (n ≠ 0)) virgin
      let (rest, more, virgin) := mulLoop bits n (virgin && decide (n1 = 0))
      (lines ++ rest, count + more, virgin)

/-- The code for a constant and the number of shifts and additions in it. -/
def sequence (n : Nat) : List Line × Nat :=
  let (lines, count, virgin) := mulLoop opt sz 64 n true
  let lines := lines ++ [newinstr .op_asp sz]
  (if virgin then lines ++ [zero opt sz] else lines, if count = 0 then 1 else count)

/-- `repl_mul`; the constant goes to an `unsigned long`. -/
def repl_mul (lp next : Line) : List Line × Nat :=
  let ins := next.l_instr
  if ins ≠ .op .op_mli ∧ ins ≠ .op .op_mlu then ([], 0)
  else
    match number next.l_a, number lp.l_a with
    | some sz, some n =>
      if ins = .op .op_loc ∧ sz ≠ opt.wordsize then ([], 0)
      else if ins = .op .op_ldc ∧ sz ≠ 2 * opt.wordsize then ([], 0)
      else if opt.repl_longmuls = false ∧ sz ≠ opt.wordsize then ([], 0)
      else sequence opt sz (n % 2 ^ 64).toNat
    | _, _ => ([], 0)

/-- What `basicblock` puts in the place of two lines. -/
def replace (lp next : Line) : Option (List Line) :=
  if lp.l_instr ≠ .op .op_loc ∧ lp.l_instr ≠ .op .op_ldc then none
  else
    let (lines, cnt) := repl_mul opt lp next
    if 0 < cnt ∧ cnt ≤ opt.repl_muls then some lines else none

/-! ### Runs of bits -/

variable {n : Nat}

theorem countOnes_spec {bits : Nat} (small : n < 2 ^ bits) :
    n + 1 = ((countOnes bits n).2 + 1) * 2 ^ (countOnes bits n).1 ∧
      (countOnes bits n).2 % 2 = 0 := by
  induction bits generalizing n with
  | zero =>
    simp only [countOnes]
    omega
  | succ bits ih =>
    unfold countOnes
    split
    · rename_i odd
      obtain ⟨number, even⟩ := ih (n := n / 2) (by omega)
      refine ⟨?_, even⟩
      rw [Nat.pow_succ, ← Nat.mul_assoc, ← number]
      omega
    · simp only [Nat.pow_zero]
      omega

theorem countZeros_spec {bits : Nat} (small : n < 2 ^ bits) (some : n ≠ 0) :
    n = (countZeros bits n).2 * 2 ^ (countZeros bits n).1 ∧ (countZeros bits n).2 % 2 = 1 := by
  induction bits generalizing n with
  | zero => omega
  | succ bits ih =>
    unfold countZeros
    split
    · rename_i even
      obtain ⟨number, odd⟩ := ih (n := n / 2) (by omega) (by omega)
      refine ⟨?_, odd⟩
      rw [Nat.pow_succ, ← Nat.mul_assoc, ← number]
      omega
    · simp only [Nat.pow_zero]
      omega

/-- The runs at the lower end of a number: `n1` ones, `n0` zeros, and the rest. -/
structure Runs (n n1 n0 rest : Nat) : Prop where
  number : n + 1 = rest * 2 ^ (n1 + n0) + 2 ^ n1
  odd : rest ≠ 0 → rest % 2 = 1
  last : rest = 0 → n0 = 0
  zeros : rest ≠ 0 → n0 ≠ 0

def runs (n : Nat) : Nat × Nat × Nat :=
  let (n1, n) := countOnes 64 n
  let (n0, n) := if n ≠ 0 then countZeros 64 n else (0, n)
  (n1, n0, n)

theorem runs_spec (small : n < 2 ^ 64) : Runs n (runs n).1 (runs n).2.1 (runs n).2.2 := by
  obtain ⟨ones, even⟩ := countOnes_spec small
  unfold runs
  generalize countOnes 64 n = first at ones even
  obtain ⟨n1, n'⟩ := first
  have pos : 0 < 2 ^ n1 := Nat.two_pow_pos n1
  have whole : n + 1 = n' * 2 ^ n1 + 2 ^ n1 := by rw [ones, Nat.add_mul, Nat.one_mul]
  by_cases none : n' = 0
  · subst none
    exact ⟨by simpa using whole, nofun, fun _ => rfl, nofun⟩
  · have below : n' < 2 ^ 64 := by
      have le := Nat.le_mul_of_pos_right n' pos
      omega
    obtain ⟨zeros, odd⟩ := countZeros_spec below none
    simp only [ne_eq, none, not_false_eq_true, if_true]
    generalize countZeros 64 n' = second at zeros odd
    obtain ⟨n0, rest⟩ := second
    simp only at zeros odd ⊢
    refine ⟨?_, fun _ => odd, fun empty => ?_, ?_⟩
    · rw [whole, zeros, Nat.pow_add]
      ring
    · omega
    · rintro - rfl
      omega

theorem mulLoop_succ (bits n : Nat) (virgin : Bool) (some : n ≠ 0) :
    mulLoop opt sz (bits + 1) n virgin =
      let (n1, n0, rest) := runs n
      let (lines, count) := group opt sz n1 n0 (decide (rest ≠ 0)) virgin
      let (more, counts, virgin) := mulLoop opt sz bits rest (virgin && decide (n1 = 0))
      (lines ++ more, count + counts, virgin) := by
  rw [mulLoop, if_neg some]
  rfl

/-! ### The code multiplies -/

section

variable {order : ByteOrder} {opt} {k : Nat} {st : Stack}

theorem exec_shift_of_lt {count : Nat} (fits : count < 256 ^ opt.wordsize) (near : count < 8 * k)
    (y : Int) :
    order.exec opt.wordsize (shift k count) (order.word k y ++ st) =
      some (order.word k (y * 2 ^ count) ++ st) :=
  (order.exec_shift fits y).trans (if_pos near)

theorem exec_fetch (y a : Int) :
    order.exec opt.wordsize (fetch k) (order.word k y ++ (order.word k a ++ st)) =
      some (order.word k y ++ (order.word k a ++ (order.word k y ++ st))) := by
  have one := order.length_word k y
  have other := order.length_word k a
  have both : (order.word k a ++ order.word k y).length = 2 * k := by
    simp only [List.length_append]
    omega
  have doubled := @ByteOrder.step_dup order opt.wordsize _ _ st both
  rw [Nat.cast_mul, Nat.cast_ofNat] at doubled
  simp only [fetch, newinstr, ByteOrder.exec, order.step_exg one other, bind_eq_bind,
    bind_some]
  rw [← List.append_assoc, doubled]
  simp only [bind_some, List.append_assoc, order.step_asp other]

theorem exec_addUnder (y a : Int) :
    order.exec opt.wordsize (addUnder k) (order.word k y ++ (order.word k a ++ st)) =
      some (order.word k y ++ (order.word k (a + y) ++ st)) := by
  rw [addUnder, order.exec_append, exec_fetch]
  simp only [newinstr, bind_some, ByteOrder.exec, order.step_adu, bind_eq_bind,
    order.step_exg (order.length_word k _) (order.length_word k _)]

theorem exec_subUnder (y a : Int) :
    order.exec opt.wordsize [newinstr .op_sbu k, newinstr .op_exg k]
        (order.word k y ++ (order.word k a ++ (order.word k y ++ st))) =
      some (order.word k y ++ (order.word k (a - y) ++ st)) := by
  simp only [newinstr, ByteOrder.exec, order.step_sbu, bind_eq_bind, bind_some,
    order.step_exg (order.length_word k _) (order.length_word k _)]

theorem step_zero (width : k = opt.wordsize ∨ k = 2 * opt.wordsize) :
    order.step opt.wordsize (zero opt k) st = some (order.word k 0 ++ st) := by
  unfold zero
  split
  · rename_i single
    have same : k = opt.wordsize := by exact_mod_cast single
    rw [newinstr, order.step_loc, same]
  · rename_i other
    have same : k = 2 * opt.wordsize :=
      width.resolve_left fun single => other (by exact_mod_cast single)
    rw [newinstr, order.step_ldc, same]

def held (order : ByteOrder) (k : Nat) (virgin : Bool) (y a : Int) (st : Stack) : Stack :=
  if virgin then order.word k y ++ st else order.word k y ++ (order.word k a ++ st)

variable {n1 n n0 rest : Nat}

theorem word_run (y a : Int) (long : n1 = 8 * k) :
    order.word k (a - y) = order.word k (a + y * (2 ^ n1 - 1)) := by
  refine order.word_congr ?_
  have power : (2 : Int) ^ n1 = 256 ^ k := by
    rw [long, pow_mul]
    norm_num
  have sum : a + y * (2 ^ n1 - 1) = (a - y) + 256 ^ k * y := by
    rw [power]
    ring
  rw [sum]
  exact (Int.modEq_iff_dvd.mpr ⟨y, by ring⟩)

/-- The code for the ones of a group when there are two or more. -/
theorem exec_ones {virgin : Bool} {y a : Int}
    (width : k = opt.wordsize ∨ k = 2 * opt.wordsize) (fresh : virgin = true → a = 0) :
    order.exec opt.wordsize
        ((if virgin then [newinstr .op_dup k, zero opt k, newinstr .op_exg k] else fetch k) ++
          [newinstr .op_sbu k, newinstr .op_exg k]) (held order k virgin y a st) =
      some (held order k false y (a - y) st) := by
  have one := order.length_word k y
  have none := order.length_word k 0
  rw [order.exec_append]
  cases virgin with
  | true =>
    obtain rfl := fresh rfl
    have start : order.exec opt.wordsize [newinstr .op_dup k, zero opt k, newinstr .op_exg k]
        (order.word k y ++ st) =
          some (order.word k y ++ (order.word k 0 ++ (order.word k y ++ st))) := by
      simp only [newinstr, ByteOrder.exec, order.step_dup one, bind_eq_bind,
        bind_some, step_zero width, order.step_exg none one]
    simp only [held, if_true, start, bind_some, exec_subUnder, Bool.false_eq_true, if_false]
  | false =>
    simp only [held, Bool.false_eq_true, if_false, exec_fetch, bind_some, exec_subUnder]

/-- One group: the sum gets the ones of the group, and the operand moves to the next one. -/
theorem exec_group {n1 n0 : Nat} {more virgin : Bool} {y a : Int}
    (width : k = opt.wordsize ∨ k = 2 * opt.wordsize) (fits : n1 + n0 < 256 ^ opt.wordsize)
    (fresh : virgin = true → a = 0)
    (near : n1 + n0 < 8 * k ∨ n1 = 8 * k ∧ n0 = 0 ∧ more = false) :
    ∃ y', order.exec opt.wordsize (group opt k n1 n0 more virgin).1 (held order k virgin y a st) =
        some (held order k (virgin && decide (n1 = 0)) y' (a + y * (2 ^ n1 - 1)) st) ∧
      (more = true → y' = y * 2 ^ (n1 + n0)) := by
  by_cases zeros : n1 = 0
  · subst zeros
    have sum : a + y * (2 ^ 0 - 1) = a := by ring
    simp only [group, sum, Nat.zero_add] at fits near ⊢
    by_cases none : n0 = 0
    · subst none
      exact ⟨y, by simp [ByteOrder.exec], fun _ => by ring⟩
    · have close : n0 < 8 * k := by omega
      refine ⟨y * 2 ^ n0, ?_, fun _ => rfl⟩
      simp only [ne_eq, none]
      cases virgin with
      | true =>
        exact exec_shift_of_lt fits close y
      | false =>
        exact exec_shift_of_lt fits close y
  · have begun : (virgin && decide (n1 = 0)) = false := by simp [zeros]
    rw [begun]
    by_cases single : n1 = 1
    · subst single
      have sum : a + y * (2 ^ 1 - 1) = a + y := by ring
      rw [sum]
      have first : order.exec opt.wordsize
          (if virgin then ([newinstr .op_dup k], 0) else (addUnder k, 1)).1
            (held order k virgin y a st) = some (held order k false y (a + y) st) := by
        cases virgin with
        | true =>
          obtain rfl := fresh rfl
          simp [held, newinstr, ByteOrder.exec, order.step_dup (order.length_word k y)]
        | false => simp only [held, Bool.false_eq_true, if_false, exec_addUnder]
      cases more with
      | false =>
        refine ⟨y, ?_, fun goes => absurd goes Bool.false_ne_true⟩
        exact first
      | true =>
        refine ⟨y * 2 ^ (1 + n0), ?_, fun _ => rfl⟩
        simp only [group, one_ne_zero, if_false, if_true]
        rw [order.exec_append, first, bind_some, Nat.add_comm n0 1]
        exact exec_shift_of_lt fits (near.resolve_right fun far => absurd far.2.2 (by decide)) y
    · simp only [group, zeros, single, if_false]
      have ones := @exec_ones opt order k st virgin y a width fresh
      by_cases run : n1 = 8 * k
      · have whole : (n1 : Int) = 8 * k := by exact_mod_cast run
        have none : n0 = 0 := by omega
        have finished : more = false := by
          rcases near with near | near
          · omega
          · exact near.2.2
        refine ⟨y, ?_, fun goes => ?_⟩
        · simp only [ne_eq, whole, not_true_eq_false, if_false, none]
          rw [ones]
          simp only [held, word_run y a run]
        · rw [finished] at goes
          exact absurd goes Bool.false_ne_true
      · have part : (n1 : Int) ≠ 8 * k := by exact_mod_cast run
        have close : n1 < 8 * k := by omega
        have sum : a - y + y * 2 ^ n1 = a + y * (2 ^ n1 - 1) := by ring
        have both : order.exec opt.wordsize
            ((if virgin then [newinstr .op_dup k, zero opt k, newinstr .op_exg k] else fetch k) ++
              [newinstr .op_sbu k, newinstr .op_exg k] ++ (shift k n1 ++ addUnder k))
            (held order k virgin y a st) =
              some (held order k false (y * 2 ^ n1) (a + y * (2 ^ n1 - 1)) st) := by
          rw [order.exec_append, ones, bind_some, order.exec_append]
          simp only [held, Bool.false_eq_true, if_false]
          rw [exec_shift_of_lt (by omega) close, bind_some, exec_addUnder, sum]
        by_cases none : n0 = 0
        · refine ⟨y * 2 ^ n1, ?_, fun _ => by rw [none, Nat.add_zero]⟩
          simp only [ne_eq, part, none]
          exact both
        · refine ⟨y * 2 ^ (n1 + n0), ?_, fun _ => rfl⟩
          simp only [ne_eq, part, not_false_eq_true, if_true, none]
          rw [order.exec_append, both, bind_some, pow_add, ← mul_assoc]
          exact exec_shift_of_lt (by omega) (by omega) _

/-- The runs of a number below `2 ^ (8 * k)` are shorter than the operand, or one run of ones is
all of it. -/
theorem Runs.near (found : Runs n n1 n0 rest) (small : n < 2 ^ (8 * k)) :
    n1 + n0 < 8 * k ∨ n1 = 8 * k ∧ n0 = 0 ∧ decide (rest ≠ 0) = false := by
  have number := found.number
  have ones : 0 < 2 ^ n1 := Nat.two_pow_pos n1
  by_cases none : rest = 0
  · have last := found.last none
    subst none last
    have le : 2 ^ n1 ≤ 2 ^ (8 * k) := by omega
    have bound := (Nat.pow_le_pow_iff_right (by decide)).mp le
    rcases Nat.lt_or_eq_of_le bound with less | same
    · exact .inl less
    · exact .inr ⟨same, rfl, rfl⟩
  · have power := Nat.le_mul_of_pos_left (2 ^ (n1 + n0)) (Nat.pos_of_ne_zero none)
    have less : 2 ^ (n1 + n0) < 2 ^ (8 * k) := by omega
    exact .inl ((Nat.pow_lt_pow_iff_right (by decide)).mp less)

theorem Runs.rest_le (found : Runs n n1 n0 rest) : 2 * rest ≤ n := by
  have number := found.number
  have ones : 0 < 2 ^ n1 := Nat.two_pow_pos n1
  by_cases none : rest = 0
  · omega
  · have zeros := found.zeros none
    have power : 2 ^ 1 ≤ 2 ^ n0 := Nat.pow_le_pow_right (by decide) (by omega)
    have product := Nat.mul_le_mul_left rest (Nat.mul_le_mul ones power)
    rw [Nat.pow_add] at number
    omega

theorem Runs.length_le (found : Runs n n1 n0 rest) (small : n < 2 ^ 64) : n1 + n0 ≤ 64 := by
  have near := found.near (k := 8) small
  omega

/-- The loop multiplies: the sum gets the operand times the number. -/
theorem exec_mulLoop {bits n : Nat} {virgin : Bool} {y a : Int} (word : 0 < opt.wordsize)
    (width : k = opt.wordsize ∨ k = 2 * opt.wordsize) (enough : n < 2 ^ bits) (le : bits ≤ 64)
    (small : n < 2 ^ (8 * k)) (fresh : virgin = true → a = 0) :
    ∃ y', order.exec opt.wordsize (mulLoop opt k bits n virgin).1 (held order k virgin y a st) =
        some (held order k (mulLoop opt k bits n virgin).2.2 y' (a + y * n) st) ∧
      ((mulLoop opt k bits n virgin).2.2 = true → a + y * n = 0) := by
  induction bits generalizing n virgin y a with
  | zero =>
    obtain rfl : n = 0 := by omega
    refine ⟨y, by simp [mulLoop, ByteOrder.exec], fun begun => ?_⟩
    simp [fresh begun]
  | succ bits ih =>
    by_cases none : n = 0
    · subst none
      refine ⟨y, by simp [mulLoop, ByteOrder.exec], fun begun => ?_⟩
      simp [fresh begun]
    · have below : n < 2 ^ 64 := enough.trans_le (Nat.pow_le_pow_right (by decide) le)
      have found := runs_spec below
      rw [mulLoop_succ opt k bits n virgin none]
      generalize runs n = pair at found ⊢
      obtain ⟨n1, n0, rest⟩ := pair
      simp only at found ⊢
      have half := found.rest_le
      have fits : n1 + n0 < 256 ^ opt.wordsize := by
        have length := found.length_le below
        have large : 256 ^ 1 ≤ 256 ^ opt.wordsize := Nat.pow_le_pow_right (by decide) word
        omega
      obtain ⟨y1, first, moved⟩ := @exec_group opt order k st n1 n0 (decide (rest ≠ 0)) virgin y a
        width fits fresh (found.near small)
      have fresh' : (virgin && decide (n1 = 0)) = true → a + y * (2 ^ n1 - 1) = 0 := by
        intro still
        rw [Bool.and_eq_true, decide_eq_true_eq] at still
        simp [fresh still.1, still.2]
      obtain ⟨y2, second, sum⟩ := ih (y := y1) (n := rest) (by omega) (by omega) (by omega) fresh'
      have total : a + y * (2 ^ n1 - 1) + y1 * rest = a + y * n := by
        have number : (n : Int) + 1 = rest * 2 ^ (n1 + n0) + 2 ^ n1 := by
          exact_mod_cast found.number
        have value : (n : Int) = rest * 2 ^ (n1 + n0) + 2 ^ n1 - 1 := by omega
        rw [value]
        by_cases finished : rest = 0
        · subst finished
          ring
        · rw [moved (by simpa using finished)]
          ring
      rw [total] at second sum
      refine ⟨y2, ?_, sum⟩
      rw [order.exec_append, first, bind_some]
      exact second

/-- The code multiplies the operand, and touches nothing below it. -/
theorem exec_sequence {n : Nat} (word : 0 < opt.wordsize)
    (width : k = opt.wordsize ∨ k = 2 * opt.wordsize) (below : n < 2 ^ 64)
    (small : n < 2 ^ (8 * k)) (y : Int) :
    order.exec opt.wordsize (sequence opt k n).1 (order.word k y ++ st) =
      some (order.word k (y * n) ++ st) := by
  obtain ⟨y', looped, sum⟩ := @exec_mulLoop opt order k st 64 n true y 0 word width below
    (Nat.le_refl 64) small fun _ => rfl
  rw [sequence]
  generalize mulLoop opt k 64 n true = result at looped sum
  obtain ⟨lines, count, virgin⟩ := result
  have dropped : ∀ below : Stack, order.exec opt.wordsize [newinstr .op_asp k]
      (order.word k y' ++ below) = some below := by
    intro below
    simp [newinstr, ByteOrder.exec, order.step_asp (order.length_word k y')]
  rw [Int.zero_add] at looped sum
  cases virgin with
  | true =>
    have product := sum rfl
    simp only [held, if_true] at looped ⊢
    rw [order.exec_append, order.exec_append, looped, bind_some, dropped, bind_some,
      product]
    simp only [ByteOrder.exec, step_zero width, bind_eq_bind, bind_some]
  | false =>
    simp only [held, if_true, Bool.false_eq_true, if_false] at looped ⊢
    rw [order.exec_append, looped, bind_some, dropped]

/-! ### Negative constants -/

/-- A number whose `m` bits are ones down to bit `r` keeps that form behind its runs. -/
theorem Runs.ones_left {m r d : Nat} (found : Runs n n1 n0 rest) (some : rest ≠ 0)
    (high : n + d + 1 = 2 ^ m) (low : d < 2 ^ r) :
    n1 + n0 ≤ r ∧ ∃ d', rest + d' + 1 = 2 ^ (m - (n1 + n0)) ∧ d' < 2 ^ (r - (n1 + n0)) := by
  have number := found.number
  have zeros := found.zeros some
  have ones : 0 < 2 ^ n1 := Nat.two_pow_pos n1
  have step : 2 * 2 ^ n1 ≤ 2 ^ (n1 + n0) := by
    have two : 2 ^ 1 ≤ 2 ^ n0 := Nat.pow_le_pow_right (by decide) (by omega)
    have product := Nat.mul_le_mul_left (2 ^ n1) two
    rw [Nat.pow_add]
    omega
  generalize size : n1 + n0 = s at number step
  have whole : rest * 2 ^ s + (2 ^ n1 + d) = 2 ^ m := by omega
  have less : s < m := by
    have power := Nat.le_mul_of_pos_left (2 ^ s) (Nat.pos_of_ne_zero some)
    exact (Nat.pow_lt_pow_iff_right (a := 2) (by decide)).mp (by omega)
  have split : 2 ^ m = 2 ^ (m - s) * 2 ^ s := by
    rw [← Nat.pow_add]
    congr 1
    omega
  have above : rest < 2 ^ (m - s) := by
    refine Nat.lt_of_mul_lt_mul_right (a := 2 ^ s) ?_
    omega
  obtain ⟨e, sum⟩ := Nat.exists_eq_add_of_lt above
  have part : (e + 1) * 2 ^ s = 2 ^ n1 + d := by
    have product : (rest + e + 1) * 2 ^ s = rest * 2 ^ s + (e + 1) * 2 ^ s := by ring
    rw [split, sum, product] at whole
    omega
  have most : 2 ^ s ≤ (e + 1) * 2 ^ s := Nat.le_mul_of_pos_left (2 ^ s) (Nat.succ_pos e)
  have near : s ≤ r := by
    by_contra far
    have power : 2 * 2 ^ r ≤ 2 ^ s := by
      rw [Nat.mul_comm, ← Nat.pow_succ]
      exact Nat.pow_le_pow_right (by decide) (by omega)
    omega
  refine ⟨near, e, by omega, ?_⟩
  refine Nat.lt_of_mul_lt_mul_right (a := 2 ^ s) ?_
  rw [← Nat.pow_add, Nat.sub_add_cancel near]
  rw [Nat.add_mul, Nat.one_mul] at part
  omega

theorem Runs.ones_last {m r d : Nat} (found : Runs n n1 n0 0) (high : n + d + 1 = 2 ^ m)
    (low : d < 2 ^ r) (less : r < m) : n1 = m := by
  have number := found.number
  have power : 2 * 2 ^ r ≤ 2 ^ m := by
    rw [Nat.mul_comm, ← Nat.pow_succ]
    exact Nat.pow_le_pow_right (by decide) less
  have upper : n1 ≤ m := (Nat.pow_le_pow_iff_right (a := 2) (by decide)).mp (by omega)
  by_contra different
  have half : 2 * 2 ^ n1 ≤ 2 ^ m := by
    rw [Nat.mul_comm, ← Nat.pow_succ]
    exact Nat.pow_le_pow_right (by decide) (by omega)
  omega

/-- The code for a run of ones that is longer than the operand shifts by the whole run. -/
theorem group_overshift {n1 n0 : Nat} {more virgin : Bool} (many : 1 < n1)
    (long : (n1 : Int) ≠ 8 * k) : ∃ first second,
      (group opt k n1 n0 more virgin).1 = first ++ (shift k n1 ++ second) := by
  have some : n1 ≠ 0 := by omega
  have several : n1 ≠ 1 := by omega
  simp only [group, some, several, if_false, ne_eq, long]
  by_cases none : n0 = 0
  · simp only [none]
    exact ⟨_, _, rfl⟩
  · simp only [none, not_false_eq_true, if_true]
    exact ⟨(if virgin then [newinstr .op_dup k, zero opt k, newinstr .op_exg k] else fetch k) ++
      [newinstr .op_sbu k, newinstr .op_exg k], addUnder k ++ shift k n0,
      by simp only [List.append_assoc]⟩

/-- Ones over the whole top of the number make the loop shift too far. -/
theorem mulLoop_overshift {bits n m r d : Nat} {virgin : Bool} (enough : n < 2 ^ bits)
    (le : bits ≤ 64) (high : n + d + 1 = 2 ^ m) (low : d < 2 ^ r) (far : r + 8 * k < m)
    (pos : 0 < k) :
    ∃ first count second, (mulLoop opt k bits n virgin).1 = first ++ (shift k count ++ second) ∧
      8 * k ≤ count ∧ count ≤ 64 := by
  induction bits generalizing n m r d virgin with
  | zero =>
    have power : 2 * 2 ^ r ≤ 2 ^ m := by
      rw [Nat.mul_comm, ← Nat.pow_succ]
      exact Nat.pow_le_pow_right (by decide) (by omega)
    omega
  | succ bits ih =>
    have none : n ≠ 0 := by
      rintro rfl
      have power : 2 * 2 ^ r ≤ 2 ^ m := by
        rw [Nat.mul_comm, ← Nat.pow_succ]
        exact Nat.pow_le_pow_right (by decide) (by omega)
      omega
    have below : n < 2 ^ 64 := enough.trans_le (Nat.pow_le_pow_right (by decide) le)
    have found := runs_spec below
    rw [mulLoop_succ opt k bits n virgin none]
    generalize runs n = pair at found ⊢
    obtain ⟨n1, n0, rest⟩ := pair
    simp only at found ⊢
    have length := found.length_le below
    have half := found.rest_le
    by_cases finished : rest = 0
    · subst finished
      have run := found.ones_last high low (by omega)
      obtain ⟨first, second, split⟩ :=
        @group_overshift opt k n1 n0 (decide ((0 : Nat) ≠ 0)) virgin (by omega) (by omega)
      refine ⟨first, n1, second ++ (mulLoop opt k bits 0 (virgin && decide (n1 = 0))).1, ?_,
        by omega, by omega⟩
      rw [split]
      simp only [List.append_assoc]
    · obtain ⟨near, d', high', low'⟩ := found.ones_left finished high low
      obtain ⟨first, count, second, split, bounds⟩ :=
        @ih rest _ _ _ (virgin && decide (n1 = 0)) (by omega) (by omega) high' low' (by omega)
      refine ⟨(group opt k n1 n0 (decide (rest ≠ 0)) virgin).1 ++ first, count, second, ?_, bounds⟩
      rw [split, List.append_assoc]

end

/-! ### When the code is exact -/

def width (lp : Line) : Nat := if lp.l_instr = .op .op_loc then opt.wordsize else 2 * opt.wordsize

/-- The constant is a number of its width, with or without a sign. -/
def Fits (lp : Line) : Prop :=
  ∀ n, number lp.l_a = some n → -(256 ^ width opt lp) ≤ 2 * n ∧ n < 256 ^ width opt lp

/-- The constant has the width of the multiplication, and the code in their place leaves the
product on the stack, whatever lies under the operand. -/
def Exact (order : ByteOrder) (lp next : Line) (lines : List Line) : Prop :=
  ∃ n, number lp.l_a = some n ∧ number next.l_a = some (width opt lp : Int) ∧
    ∀ top rest : List UInt8, top.length = width opt lp →
      order.exec opt.wordsize lines (top ++ rest) =
        some (order.word (width opt lp) (order.value top * n) ++ rest)

/-- When two lines are replaced, and by what. -/
theorem replace_inv {lp next : Line} {lines : List Line}
    (replaced : replace opt lp next = some lines) :
    ∃ n sz, number lp.l_a = some n ∧ number next.l_a = some sz ∧
      lines = (sequence opt sz (n % 2 ^ 64).toNat).1 := by
  unfold replace at replaced
  split at replaced
  · exact nomatch replaced
  · simp only at replaced
    split at replaced
    · rename_i positive
      obtain rfl := Option.some.inj replaced
      unfold repl_mul at positive ⊢
      simp only at positive ⊢
      split at positive
      · exact absurd positive.1 (by decide)
      · rename_i mul
        rw [if_neg mul]
        split at positive
        · rename_i sz n size constant
          refine ⟨n, sz, constant, size, ?_⟩
          split at positive
          · exact absurd positive.1 (by decide)
          · rename_i single
            rw [if_neg single]
            split at positive
            · exact absurd positive.1 (by decide)
            · rename_i double
              rw [if_neg double]
              split at positive
              · exact absurd positive.1 (by decide)
              · rename_i long
                rw [if_neg long]
        · exact absurd positive.1 (by decide)
    · exact nomatch replaced

section

variable {opt} {order : ByteOrder}

/-- A constant that is not negative, of at most 64 bits. -/
theorem exec_positive {k : Nat} {n : Int} {top rest : List UInt8} (word : 0 < opt.wordsize)
    (size : k = opt.wordsize ∨ k = 2 * opt.wordsize) (le : k ≤ 8) (pos : 0 ≤ n)
    (small : n < 256 ^ k) (length : top.length = k) :
    order.exec opt.wordsize (sequence opt k (n % 2 ^ 64).toNat).1 (top ++ rest) =
      some (order.word k (order.value top * n) ++ rest) := by
  have power : (256 : Int) ^ k = ((2 ^ (8 * k) : Nat) : Int) := by
    rw [pow_mul]
    norm_num
  have bits : 2 ^ (8 * k) ≤ 2 ^ 64 := Nat.pow_le_pow_right (by decide) (by omega)
  have number : (n % 2 ^ 64).toNat = n.toNat := by
    rw [Int.emod_eq_of_lt pos (by omega)]
  have below : n.toNat < 2 ^ (8 * k) := by omega
  have top_word : order.word k (order.value top) = top := length ▸ order.word_value top
  have product := @exec_sequence opt order k rest n.toNat word size (below.trans_le bits) below
    (order.value top)
  rw [top_word, Int.toNat_of_nonneg pos] at product
  rw [number]
  exact product

/-- A negative constant of eight bytes is the number of its 64 bits. -/
theorem exec_negative {n : Int} {top rest : List UInt8} (word : 0 < opt.wordsize)
    (size : 8 = opt.wordsize ∨ 8 = 2 * opt.wordsize) (length : top.length = 8) :
    order.exec opt.wordsize (sequence opt (8 : Nat) (n % 2 ^ 64).toNat).1 (top ++ rest) =
      some (order.word 8 (order.value top * n) ++ rest) := by
  have below : (n % 2 ^ 64).toNat < 2 ^ 64 := by omega
  have top_word : order.word 8 (order.value top) = top := length ▸ order.word_value top
  have product := @exec_sequence opt order 8 rest (n % 2 ^ 64).toNat word size below below
    (order.value top)
  have same : order.word 8 (order.value top * ((n % 2 ^ 64).toNat : Int)) =
      order.word 8 (order.value top * n) := by
    have value : ((n % 2 ^ 64).toNat : Int) = n % 2 ^ 64 := by omega
    rw [value]
    exact order.word_congr ((Int.mod_modEq n (2 ^ 64)).mul_left _)
  rw [top_word, same] at product
  exact product

/-- A negative constant of fewer bytes makes a shift that is too far. -/
theorem exec_overshift {k : Nat} {n : Int} {st : Stack} (word : 0 < opt.wordsize) (pos : 0 < k)
    (le : k ≤ 4) (negative : n < 0) (fits : -(256 ^ k) ≤ 2 * n) :
    order.exec opt.wordsize (sequence opt k (n % 2 ^ 64).toNat).1 st = none := by
  have power : (256 : Int) ^ k = 2 * ((2 ^ (8 * k - 1) : Nat) : Int) := by
    have bits : 8 * k = (8 * k - 1) + 1 := by omega
    have whole : (256 : Int) ^ k = 2 ^ (8 * k) := by
      rw [pow_mul]
      norm_num
    rw [whole, bits, pow_succ, Nat.add_sub_cancel]
    push_cast
    ring
  have half : 2 ^ (8 * k - 1) ≤ 2 ^ 31 := Nat.pow_le_pow_right (by decide) (by omega)
  obtain ⟨first, count, second, split, far, near⟩ :=
    @mulLoop_overshift opt k 64 (n % 2 ^ 64).toNat 64 (8 * k - 1) (-n - 1).toNat true (by omega)
      (Nat.le_refl 64) (by omega) (by omega) (by omega) pos
  have counts : count < 256 ^ opt.wordsize := by
    have large : 256 ^ 1 ≤ 256 ^ opt.wordsize := Nat.pow_le_pow_right (by decide) word
    omega
  rw [sequence]
  generalize mulLoop opt k 64 (n % 2 ^ 64).toNat true = result at split
  obtain ⟨lines, number, virgin⟩ := result
  subst split
  have beyond : ∀ more, order.exec opt.wordsize (first ++ (shift k count ++ (second ++ more))) st =
      none := fun more => ByteOrder.exec_overshift counts far first (second ++ more)
  cases virgin with
  | true =>
    simp only [List.append_assoc]
    exact beyond _
  | false =>
    simp only [List.append_assoc]
    exact beyond _

end

/-- The code for a multiplication is exact just when the widths agree and the constant is not
negative or has the 64 bits of an `unsigned long`. -/
theorem replace_exact_iff (order : ByteOrder) {opt : Options} {lp next : Line} {lines : List Line}
    (word : opt.wordsize = 1 ∨ opt.wordsize = 2 ∨ opt.wordsize = 4) (fits : Fits opt lp)
    (replaced : replace opt lp next = some lines) :
    Exact opt order lp next lines ↔
      number next.l_a = some (width opt lp : Int) ∧
        ∃ n, number lp.l_a = some n ∧ (0 ≤ n ∨ width opt lp = 8) := by
  obtain ⟨n, sz, constant, size, rfl⟩ := replace_inv opt replaced
  have bounds := fits n constant
  have some : 0 < opt.wordsize := by omega
  have sizes : width opt lp = opt.wordsize ∨ width opt lp = 2 * opt.wordsize := by
    unfold width
    split
    · exact .inl rfl
    · exact .inr rfl
  constructor
  · rintro ⟨n', constant', agree, product⟩
    obtain rfl : n = n' := Option.some.inj (constant.symm.trans constant')
    refine ⟨agree, n, constant, ?_⟩
    by_contra neither
    obtain ⟨negative, narrow⟩ := not_or.mp neither
    obtain rfl : sz = width opt lp := Option.some.inj (size.symm.trans agree)
    have none := @exec_overshift opt order (width opt lp) n (List.replicate (width opt lp) 0 ++ []) some
      (by omega) (by omega) (by omega) bounds.1
    rw [product _ [] List.length_replicate] at none
    exact nomatch none
  · rintro ⟨agree, n', constant', condition⟩
    obtain rfl : n = n' := Option.some.inj (constant.symm.trans constant')
    obtain rfl : sz = width opt lp := Option.some.inj (size.symm.trans agree)
    refine ⟨n, constant, agree, fun top rest length => ?_⟩
    by_cases pos : 0 ≤ n
    · exact exec_positive some sizes (by omega) pos bounds.2 length
    · have wide := condition.resolve_left pos
      rw [wide] at sizes length ⊢
      exact exec_negative some sizes length

/-- Words of two bytes, and up to eight shifts and additions for a multiplication. -/
def small : Options := ⟨2, 8, true⟩

def loc (n : Int) : Line := ⟨.op .op_loc, .OPMINI n⟩

def mli (sz : Int) : Line := ⟨.op .op_mli, .OPMINI sz⟩

/-- `loc 10; mli 2` -/
theorem replace_ten : ∃ lines, replace small (loc 10) (mli 2) = some lines ∧
    Exact small littleEndian (loc 10) (mli 2) lines := by
  refine ⟨_, rfl, (replace_exact_iff littleEndian (.inr (.inl rfl)) ?_ rfl).mpr ?_⟩
  · intro n constant
    cases constant
    decide
  · exact ⟨rfl, 10, rfl, .inl (by decide)⟩

/-- `loc -3; mli 2` shifts by 62 bits, and `loc 3; mli 4` is replaced though it multiplies by
four bytes. -/
theorem replace_inexact :
    (∃ lines, replace small (loc (-3)) (mli 2) = some lines ∧
      littleEndian.exec 2 lines [5, 0] = none) ∧
    ∃ lines, replace small (loc 3) (mli 4) = some lines ∧
      number (mli 4).l_a ≠ some (width small (loc 3) : Int) :=
  ⟨⟨_, rfl, by decide⟩, _, rfl, by decide⟩

end AckFormal.Opt.ReplMul
