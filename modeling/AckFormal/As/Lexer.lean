import Mathlib.Algebra.Ring.Nat
import Mathlib.Data.List.TakeWhile

/-!
# Lexical scan of the assembler

The first pass of `as/comm5.c`.  The input is the list of characters still to
be read.  A character that the source puts back into `peekc` has just been read
from the head of that list, so pushing it back is leaving the list as it was
before the read.  A `fatal` stops the scan; a `serror` is recorded and the scan
goes on.
-/

namespace AckFormal.As

inductive Fatal where
  | nonAsciiCharacter
  | numberTooLong
  | unexpectedEof

inductive SError where
  | nonTerminatedString
  | digitExceedsRadix

/-- The operand size of a `.data` directive: `RELO1`, `RELO2` or `RELO4`. -/
inductive DataSize where
  | relo1
  | relo2
  | relo4

inductive Duo where
  | opEq | opNe | opLe | opGe | opLL | opRR | opOO | opAA

inductive Token where
  | char (c : UInt8)
  | duo (op : Duo)
  | code (width : Nat) (value : Nat)
  | data (size : DataSize)
  | ascii (zero : Bool)
  | ident (name : List UInt8)
  | string (buf : List UInt8)
  | number8 (value : Nat)
  | numberf (text : List UInt8)
  | fbsym (text : List UInt8)

structure Lexeme where
  token : Token
  rest : List UInt8
  errors : List SError := []

/-! ## Character classes of the C locale -/

def isdigit (c : UInt8) : Bool := 0x30 ≤ c && c ≤ 0x39
def isupper (c : UInt8) : Bool := 0x41 ≤ c && c ≤ 0x5a
def islower (c : UInt8) : Bool := 0x61 ≤ c && c ≤ 0x7a
def isalpha (c : UInt8) : Bool := isupper c || islower c
def isalnum (c : UInt8) : Bool := isalpha c || isdigit c
def isspace (c : UInt8) : Bool := c == 0x20 || (0x09 ≤ c && c ≤ 0x0d)
def isAlpha (c : UInt8) : Bool := isalpha c || c == 0x5f || c == 0x2e
def isAlnum (c : UInt8) : Bool := isalnum c || c == 0x5f
def isoctal (c : UInt8) : Bool := 0x30 ≤ c && c ≤ 0x37
def tolower (c : UInt8) : UInt8 := if isupper c then c + 0x20 else c

/-! ## Reading characters -/

/-- At the end of the input every read gives 0. -/
def nextchar : List UInt8 → Except Fatal (UInt8 × List UInt8)
  | [] => .ok (0, [])
  | c :: rest => if c < 0x80 then .ok (c, rest) else .error .nonAsciiCharacter

variable {input rest : List UInt8}

theorem nextchar_length_le {c : UInt8}
    (read : nextchar input = .ok (c, rest)) : rest.length ≤ input.length := by
  cases input with
  | nil =>
    simp only [nextchar, Except.ok.injEq, Prod.mk.injEq] at read
    simp [← read.2]
  | cons first tail =>
    simp only [nextchar] at read
    split at read
    · simp only [Except.ok.injEq, Prod.mk.injEq] at read
      simp [← read.2]
    · cases read

theorem nextchar_length_lt {c : UInt8}
    (read : nextchar input = .ok (c, rest)) (notEnd : c ≠ 0) :
    rest.length < input.length := by
  cases input with
  | nil =>
    simp only [nextchar, Except.ok.injEq, Prod.mk.injEq] at read
    exact absurd read.1.symm notEnd
  | cons first tail =>
    simp only [nextchar] at read
    split at read
    · simp only [Except.ok.injEq, Prod.mk.injEq] at read
      simp [← read.2]
    · cases read

/-! ## Strings -/

/-- The escape after a backslash: up to three octal digits or one character. -/
def inescape (input : List UInt8) : Except Fatal (UInt8 × List UInt8) :=
  match nextchar input with
  | .error e => .error e
  | .ok (c, after) =>
    if isoctal c then
      match nextchar after with
      | .error e => .error e
      | .ok (c1, after1) =>
        if isoctal c1 then
          let r := (c - 0x30) * 8 + (c1 - 0x30)
          match nextchar after1 with
          | .error e => .error e
          | .ok (c2, after2) =>
            if isoctal c2 then .ok (r * 8 + (c2 - 0x30), after2) else .ok (r, after1)
        else .ok (c - 0x30, after)
    else if c = 0x62 then .ok (0x08, after)
    else if c = 0x66 then .ok (0x0c, after)
    else if c = 0x6e then .ok (0x0a, after)
    else if c = 0x72 then .ok (0x0d, after)
    else if c = 0x74 then .ok (0x09, after)
    else .ok (c, after)

/-- An escape uses up input. -/
theorem inescape_length_le {r : UInt8}
    (escape : inescape input = .ok (r, rest)) : rest.length ≤ input.length := by
  unfold inescape at escape
  cases read : nextchar input with
  | error e => simp [read] at escape
  | ok pair =>
    obtain ⟨c, after⟩ := pair
    have first := nextchar_length_le read
    simp only [read] at escape
    split at escape
    · cases read1 : nextchar after with
      | error e => simp [read1] at escape
      | ok pair1 =>
        obtain ⟨c1, after1⟩ := pair1
        have second := nextchar_length_le read1
        simp only [read1] at escape
        split at escape
        · cases read2 : nextchar after1 with
          | error e => simp [read2] at escape
          | ok pair2 =>
            obtain ⟨c2, after2⟩ := pair2
            have third := nextchar_length_le read2
            simp only [read2] at escape
            split at escape <;> simp only [Except.ok.injEq, Prod.mk.injEq] at escape <;>
              (rw [← escape.2]; omega)
        · simp only [Except.ok.injEq, Prod.mk.injEq] at escape
          rw [← escape.2]
          exact first
    · repeat' split at escape
      all_goals
        simp only [Except.ok.injEq, Prod.mk.injEq] at escape
        rw [← escape.2]
        exact first

set_option linter.unusedVariables false in
/-- The loop of `instring` with the bytes already in `stringbuf`. -/
def instring (termc : UInt8) (input buf : List UInt8) : Except Fatal Lexeme :=
  match read : nextchar input with
  | .error e => .error e
  | .ok (c, after) =>
    if stop : c = 0x0a ∨ c = 0 then
      .ok { token := .string buf, rest := input, errors := [.nonTerminatedString] }
    else if c = termc then .ok { token := .string buf, rest := after }
    else if c = 0x5c then
      match escape : inescape after with
      | .error e => .error e
      | .ok (r, rest) => instring termc rest (buf ++ [r])
    else instring termc after (buf ++ [c])
termination_by input.length
decreasing_by
  · have := nextchar_length_lt read (fun end_ => stop (Or.inr end_))
    have := inescape_length_le escape
    omega
  · exact nextchar_length_lt read (fun end_ => stop (Or.inr end_))

theorem instring_eq (termc : UInt8) (input buf : List UInt8) :
    instring termc input buf =
      match nextchar input with
      | .error e => .error e
      | .ok (c, after) =>
        if c = 0x0a ∨ c = 0 then
          .ok { token := .string buf, rest := input, errors := [.nonTerminatedString] }
        else if c = termc then .ok { token := .string buf, rest := after }
        else if c = 0x5c then
          match inescape after with
          | .error e => .error e
          | .ok (r, rest) => instring termc rest (buf ++ [r])
        else instring termc after (buf ++ [c]) := by
  rw [instring]
  split
  · rename_i read
    simp only [read]
  · rename_i c after read
    simp only [read]
    by_cases stop : c = 0x0a ∨ c = 0
    · simp only [stop, dite_true, if_true]
    · simp only [stop, dite_false, if_false]
      split
      · rfl
      · split
        · split
          · rename_i escape
            simp only [escape]
          · rename_i escape
            simp only [escape]
        · rfl

/-! ## Numbers -/

def digitOf (c : UInt8) : UInt8 :=
  (if 0x39 < c then c - 39 else c) - 0x30

/-- The digits of a number in `radix`, in 64-bit unsigned arithmetic; the flag
tells whether a digit exceeded the radix. -/
def evalDigits (radix : Nat) (digits : List UInt8) : Nat × Bool :=
  digits.foldl
    (fun state c =>
      ((state.1 * radix + (digitOf c).toNat) % 2 ^ 64,
        state.2 || decide (radix ≤ (digitOf c).toNat)))
    (0, false)

def splitRadix (num : List UInt8) : Nat × List UInt8 :=
  match num with
  | 0x30 :: 0x78 :: digits => (16, digits)
  | 0x30 :: 0x62 :: digits => (2, digits)
  | 0x30 :: digits => (8, digits)
  | digits => (10, digits)

/-- The end of `innumber`: a numeric label or a value. -/
def finishNumber (num rest : List UInt8) : Lexeme :=
  let last := num.getLast?.getD 0
  let (radix, digits) := splitRadix num
  if radix ≠ 16 && (last == 0x66 || last == 0x62) then
    { token := .fbsym num, rest := rest }
  else
    let (value, bad) := evalDigits radix digits
    { token := .number8 value, rest := rest,
      errors := if bad then [.digitExceedsRadix] else [] }

/-- The loop under `floatconstant`; `budget` is the room left in `num`. -/
def floatLoop : Nat → UInt8 → List UInt8 → List UInt8 → Except Fatal Lexeme
  | 0, _, _, _ => .error .numberTooLong
  | budget + 1, c, input, num =>
    match nextchar input with
    | .error e => .error e
    | .ok (raw, after) =>
      let next := tolower raw
      if isdigit next || next == 0x2e || next == 0x65 || next == 0x2b || next == 0x2d then
        floatLoop budget next after (num ++ [c])
      else .ok { token := .numberf (num ++ [c]), rest := input }

def numberLoop : Nat → UInt8 → List UInt8 → List UInt8 → Except Fatal Lexeme
  | 0, _, _, _ => .error .numberTooLong
  | budget + 1, c, input, num =>
    match nextchar input with
    | .error e => .error e
    | .ok (next, after) =>
      if next = 0x2e then floatLoop budget next after (num ++ [tolower c])
      else if isalnum next then numberLoop budget next after (num ++ [tolower c])
      else .ok (finishNumber (num ++ [tolower c]) input)

def innumber (c : UInt8) (input : List UInt8) : Except Fatal Lexeme :=
  if c = 0x2e then floatLoop 40 c input [] else numberLoop 40 c input []

/-! ## Identifiers, operators and compact code -/

/-- The longest prefix of characters that satisfy `p`, and what follows it. -/
def spanChars (p : UInt8 → Bool) : List UInt8 → Except Fatal (List UInt8 × List UInt8)
  | [] => .ok ([], [])
  | c :: rest =>
    if c < 0x80 then
      if p c then (spanChars p rest).map fun pair => (c :: pair.1, pair.2)
      else .ok ([], c :: rest)
    else .error .nonAsciiCharacter

def keyword : List UInt8 → Option Token
  | [0x2e, 0x64, 0x61, 0x74, 0x61, 0x31] => some (.data .relo1)
  | [0x2e, 0x64, 0x61, 0x74, 0x61, 0x32] => some (.data .relo2)
  | [0x2e, 0x64, 0x61, 0x74, 0x61, 0x34] => some (.data .relo4)
  | [0x2e, 0x61, 0x73, 0x63, 0x69, 0x69] => some (.ascii false)
  | [0x2e, 0x61, 0x73, 0x63, 0x69, 0x7a] => some (.ascii true)
  | _ => none

/-- `inident` with the first character `c` already read; `NAMEMAX` is 80. -/
def inident (c : UInt8) (input : List UInt8) : Except Fatal Lexeme :=
  (spanChars isAlnum input).map fun pair =>
    let name := (c :: pair.1).take 80
    { token := (keyword name).getD (.ident name), rest := pair.2 }

def duoOf : UInt8 → UInt8 → Option Duo
  | 0x3d, 0x3d => some .opEq
  | 0x3c, 0x3e => some .opNe
  | 0x3c, 0x3d => some .opLe
  | 0x3e, 0x3d => some .opGe
  | 0x3c, 0x3c => some .opLL
  | 0x3e, 0x3e => some .opRR
  | 0x7c, 0x7c => some .opOO
  | 0x26, 0x26 => some .opAA
  | _, _ => none

def induo (c : UInt8) (input : List UInt8) : Except Fatal Lexeme :=
  (nextchar input).map fun pair =>
    match duoOf c pair.1 with
    | some op => { token := .duo op, rest := pair.2 }
    | none => { token := .char c, rest := input }

/-- `readcode` reads the bytes as they are, without the test on ASCII. -/
def readcode (width : Nat) (input : List UInt8) : Except Fatal Lexeme :=
  if width ≤ input.length then
    .ok { token := .code width ((input.take width).foldl (fun v c => v * 256 + c.toNat) 0)
          rest := input.drop width }
  else .error .unexpectedEof

/-! ## The scanner -/

def skipBlanks (input : List UInt8) : List UInt8 :=
  input.dropWhile fun c => isspace c && c != 0x0a

/-- `yylex` in the first pass; `none` is the end of the input. -/
def yylex (input : List UInt8) : Except Fatal (Option Lexeme) :=
  match nextchar (skipBlanks input) with
  | .error e => .error e
  | .ok (c, after) =>
    if c = 0 then .ok none
    else if isAlpha c then (inident c after).map some
    else if isdigit c then (innumber c after).map some
    else if c = 0x3d ∨ c = 0x3c ∨ c = 0x3e ∨ c = 0x7c ∨ c = 0x26 then (induo c after).map some
    else if c = 0x27 ∨ c = 0x22 then (instring c after []).map some
    else if c = 0x21 then
      -- the comment ends in the newline token, or in the end of the input
      (spanChars (fun x => x != 0x0a && x != 0) after).map fun pair =>
        match pair.2 with
        | 0x0a :: rest => some { token := .char 0x0a, rest := rest }
        | _ => none
    else if c = 0x01 then (readcode 1 after).map some
    else if c = 0x02 then (readcode 2 after).map some
    else if c = 0x03 then (readcode 4 after).map some
    else .ok (some { token := .char c, rest := after })

end AckFormal.As
