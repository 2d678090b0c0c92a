import AckFormal.Ansi.Mktime

/-!
# Numbers in strings

`strtol` and `strtoul` of the C library, measured by the longest subject sequence of the
standard's form. The prefix is taken even where no digit follows it, and once the value is too
large the loop goes over every letter and digit.
-/

namespace AckFormal.Ansi.Strtol

open Time (long ulong longMax)

def ulongMax : Nat := 4294967295

def longMin : Int := -2147483648

def isspace (c : Char) : Bool := c = ' ' || (9 ≤ c.toNat && c.toNat ≤ 13)

def isalnum (c : Char) : Bool := c.isDigit || c.isAlpha

def digit (c : Char) : Nat :=
  if c.isAlpha then 10 + (if c.isUpper then c.toNat - 'A'.toNat else c.toNat - 'a'.toNat)
  else c.toNat - '0'.toNat

/-- A string from some place on up to its end; the end is the empty list. -/
abbrev Text := List Char

/-- The value returned, where `*endptr` points and whether `errno` is set to `ERANGE`. -/
structure Result (α : Type) where
  value : α
  endptr : Text
  erange : Bool

def ex (nptr : Text) : Bool := nptr.head? = some 'x' || nptr.head? = some 'X'

def scan (base : Nat) : Text → Nat → Bool → Nat × Bool × Text
  | [], val, ovfl => (val, ovfl, [])
  | c :: rest, val, ovfl =>
    if isalnum c then
      if ovfl then scan base rest val ovfl
      else if base ≤ digit c then (val, ovfl, c :: rest)
      else if (ulongMax - digit c) / base < val then scan base rest val true
      else scan base rest (val * base + digit c) ovfl
    else (val, ovfl, c :: rest)

def below (base : Nat) (c : Char) : Bool := isalnum c && digit c < base

/-- The string after the white space and the sign, and whether that is a minus. -/
def unsign (text : Text) : Bool × Text :=
  let nptr := text.dropWhile isspace
  if nptr.head? = some '-' then (true, nptr.tail)
  else if nptr.head? = some '+' then (false, nptr.tail)
  else (false, nptr)

/-- A zero and a letter that may be the prefix of a hexadecimal number. -/
def Prefixed (base : Nat) (nptr : Text) : Prop :=
  (base = 0 ∨ base = 16) ∧ nptr.head? = some '0' ∧ ex nptr.tail

/-- The prefix counts only before a hexadecimal digit. -/
def Hex (base : Nat) (nptr : Text) : Prop :=
  Prefixed base nptr ∧ ∃ c ∈ nptr.tail.tail.head?, below 16 c

instance (base : Nat) (nptr : Text) : Decidable (Prefixed base nptr) :=
  inferInstanceAs (Decidable (_ ∧ _ ∧ _))

instance (base : Nat) (nptr : Text) : Decidable (Hex base nptr) :=
  @instDecidableAnd _ _ _ (Option.decidableExistsMem nptr.tail.tail.head?)

/-- The base of the subject sequence and what it and the text after it consist of without a
sign and a prefix. -/
def subject (base : Nat) (nptr : Text) : Nat × Text :=
  if Hex base nptr then (16, nptr.tail.tail)
  else if base = 0 then (if nptr.head? = some '0' then 8 else 10, nptr)
  else (base, nptr)

def number (base : Nat) (digits : Text) : Nat :=
  digits.foldl (fun value c => value * base + digit c) 0

/-- The digits of the subject sequence in its base, and the text after them. -/
def digits (base : Nat) (nptr : Text) : Nat × Text × Text :=
  let (base, nptr) := subject base nptr
  (number base (nptr.takeWhile (below base)), nptr.takeWhile (below base),
    nptr.dropWhile (below base))

def signed (text : Text) (base : Nat) : Result Int :=
  let (negative, nptr) := unsign text
  let (value, digits, rest) := digits base nptr
  let value : Int := if negative then -value else value
  if digits = [] then ⟨0, text, false⟩
  else if value < longMin then ⟨longMin, rest, true⟩
  else if longMax < value then ⟨longMax, rest, true⟩
  else ⟨value, rest, false⟩

/-- What the standard says of `strtoul`; a minus negates the value in the type of the result. -/
def unsigned (text : Text) (base : Nat) : Result Nat :=
  let (negative, nptr) := unsign text
  let (value, digits, rest) := digits base nptr
  if digits = [] then ⟨0, text, false⟩
  else if ulongMax < value then ⟨ulongMax, rest, true⟩
  else ⟨ulong (if negative then -value else value), rest, false⟩

/-- No prefix stands before anything but a digit, and no number too large for an `unsigned long`
before a letter or digit. -/
def Plain (text : Text) (base : Nat) : Prop :=
  let nptr := (unsign text).2
  let (value, _, rest) := digits base nptr
  (Prefixed base nptr → Hex base nptr) ∧ (ulongMax < value → ∀ c ∈ rest.head?, ¬ isalnum c)

variable {base : Nat} {text nptr : Text}

section

variable (valid : base = 0 ∨ 2 ≤ base ∧ base ≤ 36) (plain : Plain text base)
include valid plain

end

end AckFormal.Ansi.Strtol
