import AckFormal.Flt.Operations

/-!
# Conversion from strings

`flt_str2flt` accumulates the digits of a literal in the 64-bit mantissa, keeps
the decimal exponent in an `int`, and scales the number by the powers of ten of
four tables.
-/

namespace AckFormal.Flt.Str2Flt

open Mantissa Number FltArith Operations

def toInt (x : Int) : Int :=
  (x + 2 ^ 31) % 2 ^ 32 - 2 ^ 31

/-! ## The powers of ten -/

def entry (exp : Int) (h l : UInt32) : FltArith :=
  ⟨false, exp, ⟨h, l⟩⟩

def s10pow : List FltArith :=
  [entry 0 0x80000000 0, entry 3 0xA0000000 0,
    entry 6 0xC8000000 0, entry 9 0xFA000000 0,
    entry 13 0x9C400000 0, entry 16 0xC3500000 0,
    entry 19 0xF4240000 0, entry 23 0x98968000 0,
    entry 26 0xBEBC2000 0, entry 29 0xEE6B2800 0,
    entry 33 0x9502F900 0, entry 36 0xBA43B740 0,
    entry 39 0xE8D4A510 0, entry 43 0x9184E72A 0,
    entry 46 0xB5E620F4 0x80000000, entry 49 0xE35FA931 0xA0000000,
    entry 53 0x8E1BC9BF 0x04000000, entry 56 0xB1A2BC2E 0xC5000000,
    entry 59 0xDE0B6B3A 0x76400000, entry 63 0x8AC72304 0x89E80000,
    entry 66 0xAD78EBC5 0xAC620000, entry 69 0xD8D726B7 0x177A8000,
    entry 73 0x87867832 0x6EAC9000, entry 76 0xA968163F 0x0A57B400,
    entry 79 0xD3C21BCE 0xCCEDA100, entry 83 0x84595161 0x401484A0,
    entry 86 0xA56FA5B9 0x9019A5C8, entry 89 0xCECB8F27 0xF4200F3A]

def big10pow : List FltArith :=
  [entry 0 0x80000000 0, entry 93 0x813F3978 0xF8940984,
    entry 186 0x82818F12 0x81ED44A0, entry 279 0x83C7088E 0x1AAB65DB,
    entry 372 0x850FADC0 0x9923329E, entry 465 0x865B8692 0x5B9BC5C2,
    entry 558 0x87AA9AFF 0x79042287, entry 651 0x88FCF317 0xF22241E2,
    entry 744 0x8A5296FF 0xE33CC930, entry 837 0x8BAB8EEF 0xB6409C1A,
    entry 930 0x8D07E334 0x55637EB3, entry 1023 0x8E679C2F 0x5E44FF8F,
    entry 1116 0x8FCAC257 0x558EE4E6, entry 1209 0x91315E37 0xDB165AA9,
    entry 1302 0x929B7871 0xDE7F22B9, entry 1395 0x940919BB 0xD4620B6D,
    entry 1488 0x957A4AE1 0xEBF7F3D4, entry 1581 0x96EF14C6 0x454AA840,
    entry 1674 0x98678061 0x27ECE4F5, entry 1767 0x99E396C1 0x3A3ACFF2]

def r10pow : List FltArith :=
  [entry 0 0x80000000 0, entry (-4) 0xCCCCCCCC 0xCCCCCCCD,
    entry (-7) 0xA3D70A3D 0x70A3D70A, entry (-10) 0x83126E97 0x8D4FDF3B,
    entry (-14) 0xD1B71758 0xE219652C, entry (-17) 0xA7C5AC47 0x1B478423,
    entry (-20) 0x8637BD05 0xAF6C69B6, entry (-24) 0xD6BF94D5 0xE57A42BC,
    entry (-27) 0xABCC7711 0x8461CEFD, entry (-30) 0x89705F41 0x36B4A597,
    entry (-34) 0xDBE6FECE 0xBDEDD5BF, entry (-37) 0xAFEBFF0B 0xCB24AAFF,
    entry (-40) 0x8CBCCC09 0x6F5088CC, entry (-44) 0xE12E1342 0x4BB40E13,
    entry (-47) 0xB424DC35 0x095CD80F, entry (-50) 0x901D7CF7 0x3AB0ACD9,
    entry (-54) 0xE69594BE 0xC44DE15B, entry (-57) 0xB877AA32 0x36A4B449,
    entry (-60) 0x9392EE8E 0x921D5D07, entry (-64) 0xEC1E4A7D 0xB69561A5,
    entry (-67) 0xBCE50864 0x92111AEB, entry (-70) 0x971DA050 0x74DA7BEF,
    entry (-74) 0xF1C90080 0xBAF72CB1, entry (-77) 0xC16D9A00 0x95928A27,
    entry (-80) 0x9ABE14CD 0x44753B53, entry (-84) 0xF79687AE 0xD3EEC551,
    entry (-87) 0xC6120625 0x76589DDB, entry (-90) 0x9E74D1B7 0x91E07E48]

def rBig10pow : List FltArith :=
  [entry 0 0x80000000 0, entry (-94) 0xFD87B5F2 0x8300CA0E,
    entry (-187) 0xFB158592 0xBE068D2F, entry (-280) 0xF8A95FCF 0x88747D94,
    entry (-373) 0xF64335BC 0xF065D37D, entry (-466) 0xF3E2F893 0xDEC3F126,
    entry (-559) 0xF18899B1 0xBC3F8CA2, entry (-652) 0xEF340A98 0x172AACE5,
    entry (-745) 0xECE53CEC 0x4A314EBE, entry (-838) 0xEA9C2277 0x23EE8BCB,
    entry (-931) 0xE858AD24 0x8F5C22CA, entry (-1024) 0xE61ACF03 0x3D1A45DF,
    entry (-1117) 0xE3E27A44 0x4D8D98B8, entry (-1210) 0xE1AFA13A 0xFBD14D6E,
    entry (-1303) 0xDF82365C 0x497B5454, entry (-1396) 0xDD5A2C3E 0xAB3097CC,
    entry (-1489) 0xDB377599 0xB6074245, entry (-1582) 0xD91A0545 0xCDB51186,
    entry (-1675) 0xD701CE3B 0xD387BF48, entry (-1768) 0xD4EEC394 0xD6258BF8]

def bigsz : Nat := 20

def smallsz : Nat := 28

def firstStatus (status next : FltStatus) : FltStatus :=
  if status = .ok then next else status

/-- The `while` loop of `add_exponent`: the largest power of the table is used
until the rest has an entry of its own.  It stops within `divsz` rounds. -/
def addExponentLoop (power : FltArith) :
    Nat → Int → FltArith → FltStatus → Int × FltArith × FltStatus
  | 0, divsz, x, status => (divsz, x, status)
  | fuel + 1, divsz, x, status =>
    if divsz ≥ bigsz then
      let (y, next) := fltMul x power
      addExponentLoop power fuel (toInt (divsz - (bigsz - 1))) y (firstStatus status next)
    else (divsz, x, status)

/-- `add_exponent` for one of the two pairs of tables; the division and the
remainder are those of `size_t`. -/
def scaleBy (small big : List FltArith) (e : FltArith) (exp : Int) (status : FltStatus) :
    FltArith × FltStatus :=
  let divsz := toInt (exp % 2 ^ 64 / smallsz)
  let modsz := toInt (exp % 2 ^ 64 % smallsz)
  let (x, next) := fltMul e (small.getD modsz.toNat zero)
  let (divsz, x, status) := addExponentLoop (big.getD (bigsz - 1) zero) divsz.toNat divsz x
    (firstStatus status next)
  let (e, next) := fltMul x (big.getD divsz.toNat zero)
  (e, firstStatus status next)

def addExponent (e : FltArith) (exp : Int) (status : FltStatus) : FltArith × FltStatus :=
  if exp < 0 then scaleBy r10pow rBig10pow e (toInt (-exp)) status
  else scaleBy s10pow big10pow e exp status

/-! ## Reading a literal -/

def isspace (c : UInt8) : Bool :=
  c == 0x20 || (0x09 ≤ c && c ≤ 0x0D)

def isdigit (c : UInt8) : Bool :=
  0x30 ≤ c && c ≤ 0x39

structure DigitScan where
  mantissa : FltMantissa
  exp : Int
  dotseen : Bool
  digitseen : Bool

/-- The body of the digit loop; a digit that does not fit only counts. -/
def addDigit (st : DigitScan) (c : UInt8) : DigitScan :=
  let (mantissa, exp) :=
    if st.mantissa.h32 ≤ 0x7FFFFFFF / 5 then
      let a1 := fltB64Sft st.mantissa (-1)
      let tenfold := (fltB64Add (fltB64Sft st.mantissa (-3)) a1).1
      ((fltB64Add tenfold ⟨0, (c - 0x30).toUInt32⟩).1, st.exp)
    else (st.mantissa, toInt (st.exp + 1))
  { mantissa
    exp := if st.dotseen then toInt (exp - 1) else exp
    dotseen := st.dotseen
    digitseen := true }

/-- The digit loop: it returns the character that stopped it, NUL at the end of
the string, and what follows. -/
def scanDigits : List UInt8 → DigitScan → DigitScan × UInt8 × List UInt8
  | [], st => (st, 0, [])
  | c :: s, st =>
    if isdigit c then scanDigits s (addDigit st c)
    else if c = 0x2E ∧ !st.dotseen then scanDigits s { st with dotseen := true }
    else (st, c, s)

def scanExponent : List UInt8 → Int → Int
  | [], exp1 => exp1
  | c :: s, exp1 =>
    if isdigit c then scanExponent s (toInt (10 * exp1 + (c.toNat - 0x30))) else exp1

/-- The `switch` on an optional sign: whether it is a minus, and what follows. -/
def skipSign : List UInt8 → Bool × List UInt8
  | [] => (false, [])
  | c :: s => if c = 0x2D then (true, s) else if c = 0x2B then (false, s) else (false, c :: s)

/-- The exponent part, behind the character that ended the digits. -/
def addExponentPart (exp : Int) (c : UInt8) (s : List UInt8) : Int :=
  if c = 0x45 ∨ c = 0x65 then
    let (minus, s) := skipSign s
    let exp1 := scanExponent s 0
    toInt (exp + (if minus then -exp1 else exp1))
  else exp

/-- What a literal says: its sign, its digits, its decimal exponent, and
whether it has a digit at all. -/
structure Literal where
  sign : Bool
  mantissa : FltMantissa
  exp : Int
  digitseen : Bool

def scanLiteral (s : List UInt8) : Literal :=
  let (sign, s) := skipSign (s.dropWhile isspace)
  let (st, c, s) := scanDigits s ⟨FltMantissa.zero, 0, false, false⟩
  ⟨sign, st.mantissa, addExponentPart st.exp c s, st.digitseen⟩

def literalValue (literal : Literal) : FltArith × FltStatus :=
  let e : FltArith := ⟨literal.sign, 0, literal.mantissa⟩
  if !literal.digitseen then (e, .noflt)
  else if e.m1 = 0 ∧ e.m2 = 0 then (e, .ok)
  else
    let (e, status) := addExponent (fltNrm { e with exp := 63 }) literal.exp .ok
    fltChk e status

def fltStr2flt (s : List UInt8) : FltArith × FltStatus :=
  literalValue (scanLiteral s)

/-! ## The result of a conversion -/

variable {i : Nat} {x power e : FltArith} {exp : Int} {s : List UInt8}

theorem s10pow_entry (inside : i < smallsz) :
    (s10pow.getD i zero).mantissa.Normalized ∧
      0 ≤ (s10pow.getD i zero).exp ∧ (s10pow.getD i zero).exp ≤ 90 := by
  revert i
  decide

theorem big10pow_entry (inside : i < bigsz) :
    (big10pow.getD i zero).mantissa.Normalized ∧
      0 ≤ (big10pow.getD i zero).exp ∧ (big10pow.getD i zero).exp ≤ 1768 := by
  revert i
  decide

theorem r10pow_entry (inside : i < smallsz) :
    (r10pow.getD i zero).mantissa.Normalized ∧
      -90 ≤ (r10pow.getD i zero).exp ∧ (r10pow.getD i zero).exp ≤ 0 := by
  revert i
  decide

theorem rBig10pow_entry (inside : i < bigsz) :
    (rBig10pow.getD i zero).mantissa.Normalized ∧
      -1768 ≤ (rBig10pow.getD i zero).exp ∧ (rBig10pow.getD i zero).exp ≤ 0 := by
  revert i
  decide

/-- Scaling up: once the exponent has reached the maximum it stays there and
the overflow has been reported. -/
structure Growing (x : FltArith) (status : FltStatus) : Prop where
  normal : x.mantissa.Normalized
  nonneg : 0 ≤ x.exp
  reported : x.exp < extMax ∧ status = .ok ∨ x.exp = extMax ∧ status = .ovfl

theorem Growing.fltMul {status : FltStatus} (growing : Growing x status)
    (normal : power.mantissa.Normalized) (low : 0 ≤ power.exp) (high : power.exp ≤ 1768) :
    Growing (fltMul x power).1 (firstStatus status (fltMul x power).2) := by
  obtain ⟨xNormal, nonneg, reported⟩ := growing
  have bound : x.exp ≤ 16384 := by
    rcases reported with ⟨below, -⟩ | ⟨top, -⟩
    · exact below.le
    · exact top.le
  obtain ⟨lower, upper⟩ := fltMulUnchecked_exp x power (by omega) (by omega)
  have product := fltMulUnchecked_normalized xNormal normal
  unfold Operations.fltMul
  by_cases overflow : extMax ≤ (fltMulUnchecked x power).exp
  · rw [fltChk_of_high _ overflow]
    refine ⟨normalized_top, (by decide : (0 : Int) ≤ extMax), Or.inr ⟨rfl, ?_⟩⟩
    rcases reported with ⟨-, ok⟩ | ⟨-, ovfl⟩
    · rw [ok]
      rfl
    · rw [ovfl]
      rfl
  · have notLow : extMin < (fltMulUnchecked x power).exp := by
      unfold extMin
      omega
    rw [fltChk_of_range _ notLow (not_le.mp overflow)]
    have positive : 0 ≤ (fltMulUnchecked x power).exp := by omega
    refine ⟨product, positive, Or.inl ⟨not_le.mp overflow, ?_⟩⟩
    rcases reported with ⟨-, ok⟩ | ⟨top, -⟩
    · rw [ok]
      rfl
    · omega

theorem addExponentLoop_growing (normal : power.mantissa.Normalized) (low : 0 ≤ power.exp)
    (high : power.exp ≤ 1768) (fuel : Nat) (divsz : Int) (x : FltArith) (status : FltStatus)
    (growing : Growing x status) (nonneg : 0 ≤ divsz) (bound : divsz < 2 ^ 31)
    (enough : divsz ≤ fuel) :
    (addExponentLoop power fuel divsz x status).1.toNat < bigsz ∧
    Growing (addExponentLoop power fuel divsz x status).2.1
      (addExponentLoop power fuel divsz x status).2.2 := by
  induction fuel generalizing divsz x status with
  | zero =>
    refine ⟨?_, growing⟩
    unfold addExponentLoop bigsz
    omega
  | succ fuel ih =>
    rw [addExponentLoop]
    split
    next more =>
      unfold bigsz at more
      have next : toInt (divsz - (bigsz - 1)) = divsz - 19 := by
        unfold toInt bigsz
        omega
      exact ih _ _ _ (growing.fltMul normal low high) (by omega) (by omega) (by omega)
    next done =>
      refine ⟨?_, growing⟩
      omega

theorem divsz_eq (nonneg : 0 ≤ exp) (bound : exp < 2 ^ 31) :
    toInt (exp % 2 ^ 64 / smallsz) = exp / 28 := by
  unfold toInt smallsz
  omega

theorem modsz_eq (nonneg : 0 ≤ exp) (bound : exp < 2 ^ 31) :
    toInt (exp % 2 ^ 64 % smallsz) = exp % 28 := by
  unfold toInt smallsz
  omega

theorem modsz_lt (exp : Int) : (toInt (exp % 2 ^ 64 % smallsz)).toNat < smallsz := by
  unfold toInt smallsz
  omega

theorem scaleBy_growing {status : FltStatus} (growing : Growing e status) (nonneg : 0 ≤ exp)
    (bound : exp < 2 ^ 31) :
    Growing (scaleBy s10pow big10pow e exp status).1 (scaleBy s10pow big10pow e exp status).2 := by
  obtain ⟨smallNormal, smallLow, smallHigh⟩ := s10pow_entry (modsz_lt exp)
  obtain ⟨lastNormal, lastLow, lastHigh⟩ := big10pow_entry (show bigsz - 1 < bigsz by decide)
  have first := growing.fltMul smallNormal smallLow (by omega)
  unfold scaleBy
  rw [divsz_eq nonneg bound]
  obtain ⟨inside, loop⟩ := addExponentLoop_growing lastNormal lastLow lastHigh (exp / 28).toNat
    (exp / 28) _ _ first (by omega) (by omega) (by omega)
  obtain ⟨bigNormal, bigLow, bigHigh⟩ := big10pow_entry inside
  exact loop.fltMul bigNormal bigLow bigHigh

/-- Scaling down: as long as the exponent stays above the minimum nothing is
reported. -/
theorem fltMul_shrinking (xNormal : x.mantissa.Normalized) (normal : power.mantissa.Normalized)
    (low : extMin < x.exp + power.exp) (high : x.exp + power.exp < 16000) :
    ∃ y : FltArith, fltMul x power = (y, .ok) ∧ y.mantissa.Normalized ∧
      x.exp + power.exp ≤ y.exp ∧ y.exp ≤ x.exp + power.exp + 2 := by
  unfold extMin at low
  obtain ⟨lower, upper⟩ := fltMulUnchecked_exp x power (by omega) (by omega)
  have product := fltMulUnchecked_normalized xNormal normal
  have inside : extMin < (fltMulUnchecked x power).exp ∧
      (fltMulUnchecked x power).exp < extMax := by
    unfold extMin extMax
    omega
  unfold fltMul
  rw [fltChk_of_range _ inside.1 inside.2]
  exact ⟨_, rfl, product, lower, upper⟩

/-- At most `rounds` rounds of the loop keep the exponent above the minimum. -/
theorem addExponentLoop_shrinking (normal : power.mantissa.Normalized)
    (powerLow : -1768 ≤ power.exp) (powerHigh : power.exp ≤ 0) (fuel : Nat) (divsz : Int)
    (x : FltArith) (rounds : Nat) (xNormal : x.mantissa.Normalized) (nonneg : 0 ≤ divsz)
    (few : divsz < 20 + 19 * rounds) (enough : divsz ≤ fuel) (manyRounds : rounds < 100)
    (low : extMin < x.exp - 1768 * rounds) (high : x.exp + 2 * rounds < 15000) :
    ∃ y : FltArith, addExponentLoop power fuel divsz x .ok =
        ((addExponentLoop power fuel divsz x .ok).1, y, .ok) ∧
      (addExponentLoop power fuel divsz x .ok).1.toNat < bigsz ∧
      y.mantissa.Normalized ∧ extMin < y.exp ∧ y.exp < 15000 := by
  induction fuel generalizing divsz x rounds with
  | zero =>
    refine ⟨x, rfl, ?_, xNormal, by omega, by omega⟩
    unfold addExponentLoop bigsz
    omega
  | succ fuel ih =>
    rw [addExponentLoop]
    split
    next more =>
      unfold bigsz at more
      obtain ⟨rounds, rfl⟩ : ∃ fewer, rounds = fewer + 1 := ⟨rounds - 1, by omega⟩
      have next : toInt (divsz - (bigsz - 1)) = divsz - 19 := by
        unfold toInt bigsz
        omega
      obtain ⟨y, ok, product, lower, upper⟩ :=
        fltMul_shrinking xNormal normal (by omega) (by omega)
      rw [next, ok]
      exact ih _ _ rounds product (by omega) (by omega) (by omega) (by omega) (by omega) (by omega)
    next done =>
      refine ⟨x, rfl, ?_, xNormal, by omega, by omega⟩
      omega

/-- Above ten to the power -5348 only the last multiplication can underflow. -/
theorem scaleBy_shrinking (normal : e.mantissa.Normalized) (low : 0 ≤ e.exp) (high : e.exp ≤ 63)
    (nonneg : 0 ≤ exp) (bound : exp < 5348) : Delivered (scaleBy r10pow rBig10pow e exp .ok) := by
  obtain ⟨smallNormal, smallLow, smallHigh⟩ := r10pow_entry (modsz_lt exp)
  obtain ⟨lastNormal, lastLow, lastHigh⟩ := rBig10pow_entry (show bigsz - 1 < bigsz by decide)
  obtain ⟨x, ok, product, lower, upper⟩ := fltMul_shrinking normal smallNormal
    (by unfold extMin; omega) (by omega)
  unfold scaleBy
  dsimp only
  rw [divsz_eq nonneg (by omega), ok]
  obtain ⟨y, loop, inside, yNormal, -⟩ := addExponentLoop_shrinking lastNormal lastLow lastHigh
    (exp / 28).toNat (exp / 28) x 9 product (by omega) (by omega) (by omega) (by omega)
    (by unfold extMin; omega) (by omega)
  obtain ⟨bigNormal, -⟩ := rBig10pow_entry inside
  dsimp only [firstStatus]
  rw [if_pos rfl, loop]
  exact fltMul_delivered yNormal bigNormal

/-! ## The range of the decimal exponent -/

theorem toInt_range (x : Int) : -2 ^ 31 ≤ toInt x ∧ toInt x < 2 ^ 31 := by
  unfold toInt
  omega

theorem addDigit_exp_range (st : DigitScan) (c : UInt8)
    (range : -2 ^ 31 ≤ st.exp ∧ st.exp < 2 ^ 31) :
    -2 ^ 31 ≤ (addDigit st c).exp ∧ (addDigit st c).exp < 2 ^ 31 := by
  unfold addDigit
  dsimp only
  split
  next => exact toInt_range _
  next =>
    split
    next => exact range
    next => exact toInt_range _

theorem scanDigits_exp_range (s : List UInt8) (st : DigitScan)
    (range : -2 ^ 31 ≤ st.exp ∧ st.exp < 2 ^ 31) :
    -2 ^ 31 ≤ (scanDigits s st).1.exp ∧ (scanDigits s st).1.exp < 2 ^ 31 := by
  induction s generalizing st with
  | nil => exact range
  | cons c s ih =>
    rw [scanDigits]
    split
    next => exact ih _ (addDigit_exp_range st c range)
    next =>
      split
      next => exact ih _ range
      next => exact range

theorem addExponentPart_range (c : UInt8) (s : List UInt8) (range : -2 ^ 31 ≤ exp ∧ exp < 2 ^ 31) :
    -2 ^ 31 ≤ addExponentPart exp c s ∧ addExponentPart exp c s < 2 ^ 31 := by
  unfold addExponentPart
  split
  next => exact toInt_range _
  next => exact range

theorem scanLiteral_exp_range (s : List UInt8) :
    -2 ^ 31 ≤ (scanLiteral s).exp ∧ (scanLiteral s).exp < 2 ^ 31 :=
  addExponentPart_range _ _ (scanDigits_exp_range _ ⟨FltMantissa.zero, 0, false, false⟩ (by decide))

theorem scanDigits_digitseen (s : List UInt8) (st : DigitScan) (seen : st.digitseen = true) :
    (scanDigits s st).1.digitseen = true := by
  induction s generalizing st with
  | nil => exact seen
  | cons c s ih =>
    rw [scanDigits]
    split
    next => exact ih _ rfl
    next =>
      split
      next => exact ih _ seen
      next => exact seen

theorem scanDigits_mantissa (s : List UInt8) (st : DigitScan)
    (none : (scanDigits s st).1.digitseen = false) :
    (scanDigits s st).1.mantissa = st.mantissa := by
  induction s generalizing st with
  | nil => rfl
  | cons c s ih =>
    rw [scanDigits] at none ⊢
    split
    next digit =>
      rw [if_pos digit, scanDigits_digitseen s _ rfl] at none
      contradiction
    next noDigit =>
      rw [if_neg noDigit] at none
      split
      next dot =>
        rw [if_pos dot] at none
        exact ih _ none
      next => rfl

theorem scanLiteral_mantissa (none : (scanLiteral s).digitseen = false) :
    (scanLiteral s).mantissa = FltMantissa.zero :=
  scanDigits_mantissa _ _ none

/-! ## Canonical results -/

/-- A literal converts to a canonical number unless it is a negative zero or
its decimal exponent is -5348 or less.  There the scaling multiplies a number
that has already underflowed. -/
def Convertible (literal : Literal) : Prop :=
  (literal.mantissa = FltMantissa.zero → literal.sign = false) ∧
    (literal.mantissa ≠ FltMantissa.zero → -5348 < literal.exp)

instance (literal : Literal) : Decidable (Convertible literal) :=
  inferInstanceAs (Decidable ((_ → _) ∧ (_ → _)))

variable {result : FltArith × FltStatus}

theorem fltChk_again (delivered : Delivered result) :
    Delivered (fltChk result.1 result.2) := by
  rcases delivered with (zero | ⟨normal, -⟩) | ⟨⟨normal, -⟩, -⟩
  · rw [zero, fltChk_zero]
    exact delivered_zero _
  · exact fltChk_delivered _ normal
  · exact fltChk_delivered _ normal

theorem mantissa_test {m : FltMantissa} : m.h32 = 0 ∧ m.l32 = 0 ↔ m = FltMantissa.zero := by
  constructor
  · rintro ⟨high, low⟩
    exact FltMantissa.ext high low
  · rintro rfl
    exact ⟨rfl, rfl⟩

theorem addExponent_delivered (normal : e.mantissa.Normalized) (low : 0 ≤ e.exp) (high : e.exp ≤ 63)
    (deep : -5348 < exp) (bound : exp < 2 ^ 31) : Delivered (addExponent e exp .ok) := by
  unfold addExponent
  split
  next negative =>
    have magnitude : toInt (-exp) = -exp := by
      unfold toInt
      omega
    exact scaleBy_shrinking normal low high (by omega) (by omega)
  next nonneg =>
    have growing : Growing e .ok :=
      ⟨normal, low, Or.inl ⟨lt_of_le_of_lt high (by decide), rfl⟩⟩
    obtain ⟨scaled, positive, reported⟩ := scaleBy_growing growing (not_lt.mp nonneg) bound
    rcases reported with ⟨below, -⟩ | ⟨top, ovfl⟩
    · exact Or.inl (Or.inr ⟨scaled, lt_of_lt_of_le (by decide) positive, below⟩)
    · exact Or.inr ⟨⟨scaled, top⟩, ovfl⟩

theorem fltStr2flt_nonzero (nonzero : (scanLiteral s).mantissa ≠ FltMantissa.zero) :
    fltStr2flt s =
      let scaled := addExponent (fltNrm ⟨(scanLiteral s).sign, 63, (scanLiteral s).mantissa⟩)
        (scanLiteral s).exp .ok
      fltChk scaled.1 scaled.2 := by
  have digit : (scanLiteral s).digitseen = true := by
    by_contra none
    exact nonzero (scanLiteral_mantissa (by simpa using none))
  unfold fltStr2flt literalValue
  rw [digit, if_neg (by decide), if_neg (mt mantissa_test.mp nonzero)]

theorem fltStr2flt_zero (zero : (scanLiteral s).mantissa = FltMantissa.zero) :
    (fltStr2flt s).1 = ⟨(scanLiteral s).sign, 0, FltMantissa.zero⟩ := by
  unfold fltStr2flt literalValue
  dsimp only
  rw [if_pos (mantissa_test.mpr zero), ← zero]
  split <;> rfl

/-- The conversion of a literal that is neither a negative zero nor too deep. -/
theorem fltStr2flt_delivered (convertible : Convertible (scanLiteral s)) :
    Delivered (fltStr2flt s) := by
  obtain ⟨zeroSign, deep⟩ := convertible
  by_cases empty : (scanLiteral s).mantissa = FltMantissa.zero
  · refine Or.inl (Or.inl ?_)
    rw [fltStr2flt_zero empty, zeroSign empty]
    rfl
  · obtain ⟨normal, low, high⟩ :=
      fltNrm_integer (e := ⟨(scanLiteral s).sign, 63, (scanLiteral s).mantissa⟩) empty rfl
    rw [fltStr2flt_nonzero empty]
    exact fltChk_again
      (addExponent_delivered normal low high (deep empty) (scanLiteral_exp_range s).2)

/-! ## The form of any conversion

A literal below the condition above still converts to a number whose mantissa
is zero or normalized and whose exponent stays inside the range. -/

structure Sinking (bound : Int) (x : FltArith) : Prop where
  form : x.mantissa = FltMantissa.zero ∨ x.mantissa.Normalized
  low : extMin < x.exp
  high : x.exp ≤ bound

theorem Sinking.fltMul {bound : Int} (sinking : Sinking bound x)
    (normal : power.mantissa.Normalized) (powerLow : -1768 ≤ power.exp) (powerHigh : power.exp ≤ 0)
    (nonneg : 0 ≤ bound) (small : bound ≤ 1000) (next : Int)
    (nextBound : bound + power.exp + 2 ≤ next) (nextNonneg : 0 ≤ next) :
    Sinking next (fltMul x power).1 := by
  obtain ⟨form, low, high⟩ := sinking
  unfold extMin at low
  have zeroSinking : Sinking next zero := ⟨Or.inl rfl, by decide, nextNonneg⟩
  have product : ((fltMulUnchecked x power).mantissa = FltMantissa.zero ∨
      (fltMulUnchecked x power).mantissa.Normalized) ∧
      (fltMulUnchecked x power).exp ≤ x.exp + power.exp + 2 := by
    rcases form with empty | xNormal
    · rw [fltMulUnchecked_zero (Or.inl empty), toShort_of_range (by omega) (by omega)]
      exact ⟨Or.inl rfl, by show x.exp + power.exp ≤ _; omega⟩
    · exact ⟨Or.inr (fltMulUnchecked_normalized xNormal normal),
        (fltMulUnchecked_exp x power (by omega) (by omega)).2⟩
  unfold Operations.fltMul
  by_cases underflow : (fltMulUnchecked x power).exp ≤ extMin
  · rw [fltChk_of_low _ underflow]
    exact zeroSinking
  · have inside : (fltMulUnchecked x power).exp < extMax := by
      unfold extMax
      omega
    rw [fltChk_of_range _ (not_le.mp underflow) inside]
    exact ⟨product.1, not_le.mp underflow, by
      show (fltMulUnchecked x power).exp ≤ next
      omega⟩

theorem addExponentLoop_sinking (normal : power.mantissa.Normalized) (powerLow : -1768 ≤ power.exp)
    (powerHigh : power.exp ≤ -2) {bound : Int} (nonneg : 0 ≤ bound) (small : bound ≤ 1000)
    (fuel : Nat) (divsz : Int) (x : FltArith) (status : FltStatus) (sinking : Sinking bound x)
    (range : divsz < 2 ^ 31) (enough : divsz ≤ fuel) :
    (addExponentLoop power fuel divsz x status).1.toNat < bigsz ∧
    Sinking bound (addExponentLoop power fuel divsz x status).2.1 := by
  induction fuel generalizing divsz x status with
  | zero =>
    refine ⟨?_, sinking⟩
    unfold addExponentLoop bigsz
    omega
  | succ fuel ih =>
    rw [addExponentLoop]
    split
    next more =>
      have next : toInt (divsz - (bigsz - 1)) = divsz - 19 := by
        unfold toInt bigsz
        omega
      exact ih _ _ _ (sinking.fltMul normal powerLow (by omega) nonneg small bound (by omega)
        nonneg) (by omega) (by omega)
    next done =>
      refine ⟨?_, sinking⟩
      unfold bigsz at *
      omega

theorem scaleBy_sinking (sinking : Sinking 63 e) (exp : Int) (status : FltStatus) :
    Sinking 67 (scaleBy r10pow rBig10pow e exp status).1 := by
  obtain ⟨smallNormal, smallLow, smallHigh⟩ := r10pow_entry (modsz_lt exp)
  obtain ⟨lastNormal, lastLow, -⟩ := rBig10pow_entry (show bigsz - 1 < bigsz by decide)
  have lastHigh : (rBig10pow.getD (bigsz - 1) zero).exp ≤ -2 := by decide
  have first := sinking.fltMul smallNormal (by omega) smallHigh (by omega) (by omega) 65
    (by omega) (by omega)
  have range := toInt_range (exp % 2 ^ 64 / smallsz)
  obtain ⟨inside, loop⟩ := addExponentLoop_sinking lastNormal lastLow lastHigh (by omega)
    (by omega) (toInt (exp % 2 ^ 64 / smallsz)).toNat (toInt (exp % 2 ^ 64 / smallsz)) _
    (firstStatus status (fltMul e (r10pow.getD (toInt (exp % 2 ^ 64 % smallsz)).toNat zero)).2)
    first range.2 (by omega)
  obtain ⟨bigNormal, bigLow, bigHigh⟩ := rBig10pow_entry inside
  exact loop.fltMul bigNormal bigLow bigHigh (by omega) (by omega) 67 (by omega) (by omega)

/-- A conversion gives a zero mantissa or a normalized one, and an exponent
inside the range, the maximum standing for an overflow. -/
structure WellFormed (e : FltArith) : Prop where
  form : e.mantissa = FltMantissa.zero ∨ e.mantissa.Normalized
  low : extMin < e.exp
  high : e.exp ≤ extMax

theorem Delivered.wellFormed (delivered : Delivered result) :
    WellFormed result.1 := by
  rcases delivered with (isZero | ⟨normal, low, high⟩) | ⟨⟨normal, top⟩, -⟩
  · rw [isZero]
    exact ⟨Or.inl rfl, by decide, by decide⟩
  · exact ⟨Or.inr normal, low, high.le⟩
  · exact ⟨Or.inr normal, top ▸ by decide, top.le⟩

theorem fltStr2flt_wellFormed (s : List UInt8) : WellFormed (fltStr2flt s).1 := by
  by_cases empty : (scanLiteral s).mantissa = FltMantissa.zero
  · rw [fltStr2flt_zero empty]
    exact ⟨Or.inl rfl, (by decide : extMin < 0), (by decide : 0 ≤ extMax)⟩
  · obtain ⟨normal, low, high⟩ :=
      fltNrm_integer (e := ⟨(scanLiteral s).sign, 63, (scanLiteral s).mantissa⟩) empty rfl
    by_cases negative : (scanLiteral s).exp < 0
    · have start : Sinking 63 (fltNrm ⟨(scanLiteral s).sign, 63, (scanLiteral s).mantissa⟩) :=
        ⟨Or.inr normal, lt_of_lt_of_le (by decide) low, high⟩
      have scaled := scaleBy_sinking start (toInt (-(scanLiteral s).exp)) .ok
      have inside := lt_of_le_of_lt scaled.high (by decide : (67 : Int) < extMax)
      rw [fltStr2flt_nonzero empty]
      unfold addExponent
      rw [if_pos negative, fltChk_of_range _ scaled.low inside]
      exact ⟨scaled.form, scaled.low, inside.le⟩
    · refine Delivered.wellFormed (fltStr2flt_delivered ⟨fun zero => absurd zero empty, fun _ => ?_⟩)
      omega

end AckFormal.Flt.Str2Flt
