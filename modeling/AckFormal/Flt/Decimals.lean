import AckFormal.Flt.Str2Flt
import AckFormal.Lib.Truncation

/-!
# Decimal literals

A literal is an optional sign, digits with at most one dot, and an optional
exponent.  The digit loop of `flt_str2flt` reads the digits as one number until
a guard on the upper half of the mantissa stops it; what it leaves out counts
into the decimal exponent.
-/

namespace AckFormal.Flt.Decimals

open Mantissa Number FltArith Operations Str2Flt Lib.Truncation

/-- The number that `n` becomes when digits are written behind it. -/
def continued (n : Nat) (digits : List (Fin 10)) : Nat :=
  digits.foldl (fun n d => 10 * n + d) n

/-- An exponent part: its letter, its sign with whether it is a minus, and its
digits. -/
structure Exponent where
  capital : Bool
  sign : Option Bool
  digits : List (Fin 10)

structure Numeral where
  sign : Option Bool
  whole : List (Fin 10)
  fraction : Option (List (Fin 10))
  exponent : Option Exponent

def digit (d : Fin 10) : UInt8 := UInt8.ofNat (0x30 + d)

def signText : Option Bool → List UInt8
  | none => []
  | some minus => [if minus then 0x2D else 0x2B]

def exponentText : Option Exponent → List UInt8
  | none => []
  | some e => (if e.capital then 0x45 else 0x65) :: (signText e.sign ++ e.digits.map digit)

def fractionText : Option (List (Fin 10)) → List UInt8
  | none => []
  | some digits => 0x2E :: digits.map digit

namespace Numeral

def text (n : Numeral) : List UInt8 :=
  signText n.sign ++
    (n.whole.map digit ++ (fractionText n.fraction ++ exponentText n.exponent))

def digits (n : Numeral) : List (Fin 10) := n.whole ++ n.fraction.getD []

def places (n : Numeral) : Nat := (n.fraction.getD []).length

def power (n : Numeral) : Int :=
  match n.exponent with
  | none => 0
  | some e => signed (e.sign == some true) (continued 0 e.digits)

def value (n : Numeral) : ℚ :=
  signed (n.sign == some true) (continued 0 n.digits) * 10 ^ (n.power - n.places)

end Numeral

/-! ## Digits and the guard -/

/-- The guard of the digit loop lets a mantissa below this pass. -/
def guarded : Nat := 0x1999999A * 2 ^ 32

/-- The mantissa after some digits, and how many of them it has left out. -/
def gather : List (Fin 10) → Nat → Nat × Nat
  | [], m => (m, 0)
  | d :: digits, m =>
    if m < guarded then gather digits ((10 * m + d) % 2 ^ 64)
    else ((gather digits m).1, (gather digits m).2 + 1)

def surplus : List (Fin 10) → Nat → Nat
  | [], _ => 0
  | d :: digits, n => surplus digits (10 * n + d) + if n < guarded then 0 else 1

/-- A number that the guard lets in although the mantissa cannot hold it. -/
def Unsafe (n : Nat) : Prop := 2 ^ 64 ≤ n ∧ n < 10 * guarded

instance (n : Nat) : Decidable (Unsafe n) := inferInstanceAs (Decidable (_ ∧ _))

def Safe (digits : List (Fin 10)) (n : Nat) : Prop :=
  ∀ taken ∈ digits.inits, ¬ Unsafe (continued n taken)

instance (digits : List (Fin 10)) (n : Nat) : Decidable (Safe digits n) :=
  inferInstanceAs (Decidable (∀ taken ∈ digits.inits, _))

def overflows : List (Fin 10) → Nat → Bool
  | [], _ => false
  | d :: digits, m =>
    if m < guarded then
      decide (2 ^ 64 ≤ 10 * m + d) || overflows digits ((10 * m + d) % 2 ^ 64)
    else overflows digits m

def Numeral.decimalExponent (n : Numeral) : Int :=
  surplus n.digits 0 + n.power - n.places

theorem continued_cons (n : Nat) (d : Fin 10) (digits : List (Fin 10)) :
    continued n (d :: digits) = continued (10 * n + d) digits :=
  rfl

theorem continued_bounds (digits : List (Fin 10)) (n : Nat) :
    n * 10 ^ digits.length ≤ continued n digits ∧
      continued n digits < (n + 1) * 10 ^ digits.length := by
  induction digits generalizing n with
  | nil => exact ⟨(Nat.mul_one n).le, by simp [continued]⟩
  | cons d digits ih =>
    obtain ⟨low, high⟩ := ih (10 * n + d)
    rw [continued_cons, List.length_cons, pow_succ']
    constructor
    · calc n * (10 * 10 ^ digits.length) = (10 * n) * 10 ^ digits.length := by ring
        _ ≤ (10 * n + d) * 10 ^ digits.length := Nat.mul_le_mul_right _ (by omega)
        _ ≤ _ := low
    · calc continued (10 * n + d) digits < (10 * n + d + 1) * 10 ^ digits.length := high
        _ ≤ (10 * n + 10) * 10 ^ digits.length := Nat.mul_le_mul_right _ (by omega)
        _ = _ := by ring

theorem le_continued (digits : List (Fin 10)) (n : Nat) : n ≤ continued n digits :=
  le_trans (Nat.le_mul_of_pos_right n (by positivity)) (continued_bounds digits n).1

variable {digits : List (Fin 10)} {n : Nat} {s : List UInt8}

theorem safe_cons {d : Fin 10} : Safe (d :: digits) n ↔ ¬ Unsafe n ∧ Safe digits (10 * n + d) := by
  unfold Safe
  simp only [List.inits_cons, List.mem_cons, List.mem_map, forall_eq_or_imp, forall_exists_index,
    and_imp, forall_apply_eq_imp_iff₂, continued_cons]
  rfl

theorem safe_of_guarded (stopped : guarded ≤ n) (fits : n < 2 ^ 64) : Safe digits n := by
  intro taken _ danger
  cases taken with
  | nil => exact absurd danger.1 (not_le.mpr fits)
  | cons d taken =>
    have grown := le_continued taken (10 * n + d)
    have bound := danger.2
    rw [continued_cons] at bound
    omega

theorem gather_guarded {m : Nat} (stopped : guarded ≤ m) :
    gather digits m = (m, digits.length) := by
  induction digits with
  | nil => rfl
  | cons d digits ih => rw [gather, if_neg (not_lt.mpr stopped), ih, List.length_cons]

theorem surplus_guarded (stopped : guarded ≤ n) : surplus digits n = digits.length := by
  induction digits generalizing n with
  | nil => rfl
  | cons d digits ih =>
    rw [surplus, if_neg (not_lt.mpr stopped), ih (by omega), List.length_cons]

theorem overflows_guarded {m : Nat} (stopped : guarded ≤ m) : overflows digits m = false := by
  induction digits with
  | nil => rfl
  | cons d digits ih => rw [overflows, if_neg (not_lt.mpr stopped), ih]

theorem overflows_iff (fits : n < 2 ^ 64) : overflows digits n = false ↔ Safe digits n := by
  induction digits generalizing n with
  | nil =>
    refine iff_of_true rfl fun taken member danger => ?_
    rw [List.mem_singleton.mp member] at danger
    exact absurd danger.1 (not_le.mpr fits)
  | cons d digits ih =>
    by_cases pass : n < guarded
    · rw [overflows, if_pos pass, safe_cons, Bool.or_eq_false_iff, decide_eq_false_iff_not, not_le]
      have start : ¬ Unsafe n := fun danger => absurd danger.1 (not_le.mpr fits)
      constructor
      · rintro ⟨next, rest⟩
        rw [Nat.mod_eq_of_lt next] at rest
        exact ⟨start, (ih next).mp rest⟩
      · rintro ⟨-, rest⟩
        have safe := rest [] (by simp)
        have next : 10 * n + d < 2 ^ 64 := by
          by_contra large
          exact safe ⟨not_lt.mp large, by show 10 * n + d < _; omega⟩
        rw [Nat.mod_eq_of_lt next]
        exact ⟨next, (ih next).mpr rest⟩
    · exact iff_of_true (overflows_guarded (not_lt.mp pass)) (safe_of_guarded (not_lt.mp pass) fits)

/-- What the mantissa holds of a number, when it never overflows. -/
structure Gathered (digits : List (Fin 10)) (n : Nat) (m skipped : Nat) : Prop where
  low : m * 10 ^ skipped ≤ continued n digits
  high : continued n digits < (m + 1) * 10 ^ skipped
  stopped : skipped ≠ 0 → guarded ≤ m
  count : skipped = surplus digits n

theorem gather_gathered (fits : n < 2 ^ 64) (safe : Safe digits n) :
    Gathered digits n (gather digits n).1 (gather digits n).2 := by
  induction digits generalizing n with
  | nil => exact ⟨(Nat.mul_one n).le, by simp [continued, gather], fun skipped => absurd rfl skipped, rfl⟩
  | cons d digits ih =>
    by_cases pass : n < guarded
    · obtain ⟨-, rest⟩ := safe_cons.mp safe
      have next : 10 * n + d < 2 ^ 64 := by
        by_contra large
        exact rest [] (by simp) ⟨not_lt.mp large, by show 10 * n + d < _; omega⟩
      obtain ⟨low, high, stopped, count⟩ := ih next rest
      rw [gather, if_pos pass, Nat.mod_eq_of_lt next]
      exact ⟨low, high, stopped, by rw [surplus, if_pos pass, count, Nat.add_zero]⟩
    · rw [gather_guarded (not_lt.mp pass)]
      obtain ⟨low, high⟩ := continued_bounds (d :: digits) n
      exact ⟨low, high, fun _ => not_lt.mp pass, (surplus_guarded (not_lt.mp pass)).symm⟩

/-! ## One digit -/

def digitCarries (st : DigitScan) (c : UInt8) : Bool :=
  if st.mantissa.h32 ≤ 0x7FFFFFFF / 5 then
    let a1 := fltB64Sft st.mantissa (-1)
    let tenfold := fltB64Add (fltB64Sft st.mantissa (-3)) a1
    tenfold.2 || (fltB64Add tenfold.1 ⟨0, (c - 0x30).toUInt32⟩).2
  else false

def scanCarries : List UInt8 → DigitScan → Bool
  | [], _ => false
  | c :: s, st =>
    if isdigit c then digitCarries st c || scanCarries s (addDigit st c)
    else if c = 0x2E ∧ !st.dotseen then scanCarries s { st with dotseen := true }
    else false

def literalCarries (s : List UInt8) : Bool :=
  scanCarries (skipSign (s.dropWhile isspace)).2 ⟨FltMantissa.zero, 0, false, false⟩

theorem isdigit_digit (d : Fin 10) : isdigit (digit d) = true := by
  revert d
  decide

theorem digit_value (d : Fin 10) :
    (⟨0, (digit d - 0x30).toUInt32⟩ : FltMantissa).value = d := by
  revert d
  decide

theorem guard_iff (m : FltMantissa) : m.h32 ≤ 0x7FFFFFFF / 5 ↔ m.value < guarded := by
  have low := m.l32.toNat_lt
  have bound : ((0x7FFFFFFF / 5 : UInt32)).toNat = 0x19999999 := by decide
  rw [UInt32.le_iff_toNat_le, bound]
  unfold FltMantissa.value guarded
  omega

/-- Eight times and twice the mantissa fit, their sum need not. -/
theorem tenfold_spec {m : FltMantissa} (pass : m.value < guarded) :
    (fltB64Add (fltB64Sft m (-3)) (fltB64Sft m (-1))).1.value = 10 * m.value % 2 ^ 64 ∧
      (fltB64Add (fltB64Sft m (-3)) (fltB64Sft m (-1))).2 = decide (2 ^ 64 ≤ 10 * m.value) := by
  have eight : (fltB64Sft m (-3)).value = m.value * 2 ^ 3 % 2 ^ 64 :=
    fltB64Sft_left m (n := 3) (by decide)
  have two : (fltB64Sft m (-1)).value = m.value * 2 ^ 1 % 2 ^ 64 :=
    fltB64Sft_left m (n := 1) (by decide)
  have sum : m.value * 2 ^ 3 % 2 ^ 64 + m.value * 2 ^ 1 % 2 ^ 64 = 10 * m.value := by
    unfold guarded at pass
    omega
  rw [fltB64Add_value, fltB64Add_carry, eight, two, sum]
  exact ⟨rfl, rfl⟩

structure Reads (st : DigitScan) (m : Nat) (exp : Int) (dot : Bool) : Prop where
  mantissa : st.mantissa.value = m
  exp : st.exp = toInt exp
  dotseen : st.dotseen = dot

variable {st : DigitScan} {m : Nat} {exp : Int} {dot : Bool}

theorem toInt_add (x y : Int) : toInt (toInt x + y) = toInt (x + y) := by
  unfold toInt
  omega

theorem digitCarries_eq (reads : Reads st m exp dot) (d : Fin 10) :
    digitCarries st (digit d) = (decide (m < guarded) && decide (2 ^ 64 ≤ 10 * m + d)) := by
  obtain ⟨rfl, -, -⟩ := reads
  unfold digitCarries
  by_cases pass : st.mantissa.value < guarded
  · obtain ⟨product, carry⟩ := tenfold_spec pass
    rw [if_pos ((guard_iff _).mpr pass), decide_eq_true pass, Bool.true_and]
    dsimp only
    rw [carry, fltB64Add_carry, product, digit_value, ← Bool.decide_or]
    refine decide_eq_decide.mpr ?_
    omega
  · rw [if_neg (mt (guard_iff _).mp pass), decide_eq_false pass, Bool.false_and]

def behind (dot : Bool) : Int := if dot then 1 else 0

theorem toInt_behind (exp : Int) (dot : Bool) :
    (if dot then toInt (toInt exp - 1) else toInt exp) = toInt (exp - behind dot) := by
  cases dot with
  | false => exact congrArg toInt (sub_zero exp).symm
  | true => exact toInt_add exp (-1)

theorem extended_value {m : FltMantissa} (pass : m.value < guarded) (d : Fin 10) :
    (fltB64Add (fltB64Add (fltB64Sft m (-3)) (fltB64Sft m (-1))).1
      ⟨0, (digit d - 0x30).toUInt32⟩).1.value = (10 * m.value + d) % 2 ^ 64 := by
  rw [fltB64Add_value, (tenfold_spec pass).1, digit_value, Nat.mod_add_mod]

theorem addDigit_pass {st : DigitScan} (pass : st.mantissa.value < guarded) (d : Fin 10) :
    ∃ next : FltMantissa, next.value = (10 * st.mantissa.value + d) % 2 ^ 64 ∧
      addDigit st (digit d) =
        ⟨next, if st.dotseen then toInt (st.exp - 1) else st.exp, st.dotseen, true⟩ := by
  refine ⟨_, extended_value pass d, ?_⟩
  unfold addDigit
  rw [if_pos ((guard_iff _).mpr pass)]

theorem Reads.taken (reads : Reads st m exp dot) (pass : m < guarded) (d : Fin 10) :
    Reads (addDigit st (digit d)) ((10 * m + d) % 2 ^ 64) (exp - behind dot) dot := by
  obtain ⟨mantissa, exponent, dotseen⟩ := reads
  rw [← mantissa] at pass
  obtain ⟨next, value, result⟩ := addDigit_pass pass d
  rw [mantissa] at value
  rw [result, exponent, dotseen, toInt_behind]
  exact ⟨value, rfl, rfl⟩

theorem Reads.left (reads : Reads st m exp dot) (stopped : guarded ≤ m) (d : Fin 10) :
    Reads (addDigit st (digit d)) m (exp + 1 - behind dot) dot := by
  obtain ⟨mantissa, exponent, dotseen⟩ := reads
  rw [← mantissa] at stopped
  unfold addDigit
  rw [if_neg (mt (guard_iff _).mp (not_lt.mpr stopped))]
  refine ⟨mantissa, ?_, dotseen⟩
  dsimp only
  rw [exponent, dotseen, toInt_add, toInt_behind]

/-! ## A whole literal -/

def addDigits (digits : List (Fin 10)) (st : DigitScan) : DigitScan :=
  digits.foldl (fun st d => addDigit st (digit d)) st

theorem Reads.addDigits (digits : List (Fin 10)) (reads : Reads st m exp dot) :
    Reads (addDigits digits st) (gather digits m).1
      (exp + (gather digits m).2 - behind dot * digits.length) dot := by
  induction digits generalizing st m exp with
  | nil => exact ⟨reads.mantissa, reads.exp.trans (congrArg toInt (by simp [gather])), reads.dotseen⟩
  | cons d digits ih =>
    by_cases pass : m < guarded
    · have rest := ih (reads.taken pass d)
      rw [gather, if_pos pass]
      refine ⟨rest.mantissa, rest.exp.trans (congrArg toInt ?_), rest.dotseen⟩
      rw [List.length_cons, Nat.cast_succ]
      ring
    · have rest := ih (reads.left (not_lt.mp pass) d)
      rw [gather, if_neg pass]
      refine ⟨rest.mantissa, rest.exp.trans (congrArg toInt ?_), rest.dotseen⟩
      rw [List.length_cons, Nat.cast_succ, Nat.cast_succ]
      ring

theorem scanDigits_digits (digits : List (Fin 10)) (s : List UInt8) (st : DigitScan) :
    scanDigits (digits.map digit ++ s) st = scanDigits s (addDigits digits st) := by
  induction digits generalizing st with
  | nil => rfl
  | cons d digits ih =>
    rw [List.map_cons, List.cons_append, scanDigits, if_pos (isdigit_digit d), ih]
    rfl

theorem scanCarries_digits (digits : List (Fin 10)) (s : List UInt8) (reads : Reads st m exp dot) :
    scanCarries (digits.map digit ++ s) st =
      (overflows digits m || scanCarries s (addDigits digits st)) := by
  induction digits generalizing st m exp with
  | nil => rfl
  | cons d digits ih =>
    rw [List.map_cons, List.cons_append, scanCarries, if_pos (isdigit_digit d),
      digitCarries_eq reads, overflows]
    by_cases pass : m < guarded
    · rw [ih (reads.taken pass d), if_pos pass, decide_eq_true pass, Bool.true_and, Bool.or_assoc]
      rfl
    · rw [ih (reads.left (not_lt.mp pass) d), if_neg pass, decide_eq_false pass,
        Bool.false_and, Bool.false_or]
      rfl

theorem gather_append (front back : List (Fin 10)) (m : Nat) :
    gather (front ++ back) m =
      ((gather back (gather front m).1).1, (gather front m).2 + (gather back (gather front m).1).2) := by
  induction front generalizing m with
  | nil => simp [gather]
  | cons d front ih =>
    rw [List.cons_append, gather, gather]
    split
    next => exact ih _
    next =>
      rw [ih]
      exact Prod.ext rfl (Nat.add_right_comm _ _ 1)

theorem overflows_append (front back : List (Fin 10)) (m : Nat) :
    overflows (front ++ back) m = (overflows front m || overflows back (gather front m).1) := by
  induction front generalizing m with
  | nil => rfl
  | cons d front ih =>
    rw [List.cons_append, overflows, overflows, gather]
    split
    next => rw [ih, Bool.or_assoc]
    next => exact ih _

theorem letter_ends (capital : Bool) (s : List UInt8) (st : DigitScan) :
    scanDigits ((if capital then 0x45 else 0x65) :: s) st =
        (st, if capital then 0x45 else 0x65, s) ∧
      scanCarries ((if capital then 0x45 else 0x65) :: s) st = false := by
  cases capital <;> exact ⟨rfl, rfl⟩

theorem scanCarries_exponentText (e : Option Exponent) (st : DigitScan) :
    scanCarries (exponentText e) st = false := by
  cases e with
  | none => rfl
  | some e => exact (letter_ends e.capital _ st).2

def Plain (s : List UInt8) : Prop :=
  ∀ c ∈ s.head?, isspace c = false ∧ c ≠ 0x2D ∧ c ≠ 0x2B

theorem plain_digits (digits : List (Fin 10)) (plain : Plain s) :
    Plain (digits.map digit ++ s) := by
  cases digits with
  | nil => exact plain
  | cons d digits =>
    intro c first
    obtain rfl : digit d = c := by simpa using first
    clear first
    revert d
    decide

theorem plain_exponentText (e : Option Exponent) : Plain (exponentText e) := by
  cases e with
  | none => exact fun c first => nomatch first
  | some e =>
    intro c first
    obtain ⟨capital, sign, digits⟩ := e
    obtain rfl : (if capital then 0x45 else 0x65 : UInt8) = c := by
      simpa [exponentText] using first
    cases capital <;> decide

theorem plain_fractionText (fraction : Option (List (Fin 10))) (plain : Plain s) :
    Plain (fractionText fraction ++ s) := by
  cases fraction with
  | none => exact plain
  | some digits =>
    intro c first
    obtain rfl : 0x2E = c := by simpa [fractionText] using first
    decide

theorem skipSign_signText (sign : Option Bool) (plain : Plain s) :
    skipSign (signText sign ++ s) = (sign == some true, s) := by
  cases sign with
  | none =>
    cases s with
    | nil => rfl
    | cons c s =>
      obtain ⟨-, minus, plus⟩ := plain c rfl
      show skipSign (c :: s) = _
      rw [skipSign, if_neg minus, if_neg plus]
      rfl
  | some minus => cases minus <;> rfl

theorem dropWhile_signText (sign : Option Bool) (plain : Plain s) :
    (signText sign ++ s).dropWhile isspace = signText sign ++ s := by
  cases sign with
  | none =>
    cases s with
    | nil => rfl
    | cons c s =>
      obtain ⟨graphic, -⟩ := plain c rfl
      exact List.dropWhile_cons_of_neg (by rw [graphic]; decide)
  | some minus => cases minus <;> rfl

theorem scanExponent_digits (digits : List (Fin 10)) (n : Nat) :
    scanExponent (digits.map digit) (toInt n) = toInt (continued n digits) := by
  induction digits generalizing n with
  | nil => rfl
  | cons d digits ih =>
    have byte : ((digit d).toNat : Int) - 0x30 = d := by
      revert d
      decide
    have next : toInt (10 * toInt n + d) = toInt ((10 * n + d : Nat) : Int) := by
      unfold toInt
      omega
    rw [List.map_cons, scanExponent, if_pos (isdigit_digit d), byte, next, ih, continued_cons]

/-- What the digit loop leaves of the digits and the exponent part. -/
theorem scanDigits_exponentText (e : Option Exponent) (st : DigitScan) :
    ∃ (c : UInt8) (rest : List UInt8), scanDigits (exponentText e) st = (st, c, rest) ∧
      ∀ x : Int, addExponentPart (toInt x) c rest =
        toInt (x + (match e with
          | none => 0
          | some e => signed (e.sign == some true) (continued 0 e.digits))) := by
  cases e with
  | none => exact ⟨0, [], rfl, fun x => congrArg toInt (add_zero x).symm⟩
  | some e =>
    refine ⟨_, _, (letter_ends e.capital _ st).1, fun x => ?_⟩
    have letter : (if e.capital then 0x45 else 0x65 : UInt8) = 0x45 ∨
        (if e.capital then 0x45 else 0x65 : UInt8) = 0x65 := by
      cases e.capital <;> decide
    have plain : Plain (e.digits.map digit) := by
      have plain := plain_digits e.digits (s := []) (fun c first => nomatch first)
      rwa [List.append_nil] at plain
    have number : scanExponent (e.digits.map digit) 0 = toInt (continued 0 e.digits) :=
      scanExponent_digits e.digits 0
    unfold addExponentPart
    rw [if_pos letter, skipSign_signText e.sign plain]
    dsimp only
    rw [number]
    cases e.sign == some true with
    | false =>
      rw [if_neg (by decide), signed_false, add_comm, toInt_add, add_comm, toInt_add]
    | true =>
      rw [if_pos rfl, signed_true]
      unfold toInt
      omega

theorem scanDigits_fractionText (fraction : Option (List (Fin 10))) (s : List UInt8)
    (reads : Reads st m exp false) :
    ∃ (st' : DigitScan) (dot : Bool),
      Reads st' (gather (fraction.getD []) m).1
        (exp + (gather (fraction.getD []) m).2 - (fraction.getD []).length) dot ∧
      scanDigits (fractionText fraction ++ s) st = scanDigits s st' ∧
      scanCarries (fractionText fraction ++ s) st =
        (overflows (fraction.getD []) m || scanCarries s st') := by
  cases fraction with
  | none =>
    refine ⟨st, false, ⟨reads.mantissa, reads.exp.trans (congrArg toInt ?_), reads.dotseen⟩,
      rfl, rfl⟩
    simp [gather]
  | some digits =>
    have dotted : Reads { st with dotseen := true } m exp true := ⟨reads.mantissa, reads.exp, rfl⟩
    have first : (0x2E : UInt8) = 0x2E ∧ (!st.dotseen) = true := by
      rw [reads.dotseen]
      exact ⟨rfl, rfl⟩
    have after := dotted.addDigits digits
    rw [show behind true = 1 from rfl, one_mul] at after
    refine ⟨addDigits digits { st with dotseen := true }, true, after, ?_, ?_⟩
    · rw [fractionText, List.cons_append, scanDigits, if_neg (by decide), if_pos first,
        scanDigits_digits]
    · rw [fractionText, List.cons_append, scanCarries, if_neg (by decide), if_pos first,
        scanCarries_digits digits s dotted]
      rfl

structure Scanned (n : Numeral) (s : List UInt8) : Prop where
  sign : (scanLiteral s).sign = (n.sign == some true)
  mantissa : (scanLiteral s).mantissa.value = (gather n.digits 0).1
  exp : (scanLiteral s).exp = toInt ((gather n.digits 0).2 + n.power - n.places)
  carries : literalCarries s = overflows n.digits 0

theorem scanned (n : Numeral) : Scanned n n.text := by
  have start : Reads ⟨FltMantissa.zero, 0, false, false⟩ 0 0 false := ⟨rfl, rfl, rfl⟩
  have whole := start.addDigits n.whole
  obtain ⟨st, dot, reads, digits, carries⟩ :=
    scanDigits_fractionText n.fraction (exponentText n.exponent) whole
  obtain ⟨c, rest, part, exponent⟩ := scanDigits_exponentText n.exponent st
  have plain : Plain (n.whole.map digit ++ (fractionText n.fraction ++ exponentText n.exponent)) :=
    plain_digits _ (plain_fractionText _ (plain_exponentText _))
  have split := gather_append n.whole (n.fraction.getD []) 0
  have body : skipSign (n.text.dropWhile isspace) = (n.sign == some true,
      n.whole.map digit ++ (fractionText n.fraction ++ exponentText n.exponent)) := by
    unfold Numeral.text
    rw [dropWhile_signText _ plain, skipSign_signText _ plain]
  have scan : scanLiteral n.text =
      ⟨n.sign == some true, st.mantissa, addExponentPart st.exp c rest, st.digitseen⟩ := by
    unfold scanLiteral
    rw [body]
    dsimp only
    rw [scanDigits_digits, digits, part]
  refine ⟨congrArg Literal.sign scan, ?_, ?_, ?_⟩
  · rw [scan, Numeral.digits, split]
    exact reads.mantissa
  · rw [scan, Numeral.digits, split]
    rw [reads.exp, exponent]
    refine congrArg toInt ?_
    unfold Numeral.power Numeral.places behind
    push_cast
    ring
  · unfold literalCarries
    rw [body]
    rw [scanCarries_digits _ _ start, carries, scanCarries_exponentText, Bool.or_false,
      Numeral.digits, overflows_append]

end AckFormal.Flt.Decimals
