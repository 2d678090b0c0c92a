import Mathlib.Algebra.Group.Nat.Defs
import Mathlib.Data.List.TakeWhile

/-!
# The text of the time zone

What `parseTZ` of the C library writes to its arrays, over all the values that the environment
gives it one after the other. An access outside of an array is `none`. The numbers that the
text stands for are read for the checks on them only; they are kept in an `int`, which wraps.
-/

namespace AckFormal.Ansi.ParseTZ

open Option (bind_eq_bind bind_some some_ne_none)

def ruleLen : Nat := 120
def tzLen : Nat := 10

def nul : Char := '\x00'

abbrev Text := List Char

abbrev Cells := List Char

def store (cells : Cells) (place : Nat) (text : Text) : Option Cells :=
  if place + text.length ≤ cells.length then
    some (cells.take place ++ text ++ cells.drop (place + text.length))
  else none

section Parsers

variable (bits : Nat)

/-- The `int` of that many bits in which the loops over digits keep their number. -/
def number (digits : Text) : Int :=
  digits.foldl (fun n c => Int.bmod (10 * n + (c.toNat - '0'.toNat : Nat)) (2 ^ bits)) 0

def inName (c : Char) : Bool := ! c.isDigit && c ≠ ',' && c ≠ '-' && c ≠ '+'

def zoneName (p : Text) : Option Text :=
  if p.head? = some ':' ∨ (p.takeWhile inName).length < 3 then none else some (p.dropWhile inName)

def parseTime (p : Text) : Option Text :=
  let rest := p.dropWhile Char.isDigit
  if p.takeWhile Char.isDigit = [] ∨ 24 ≤ number bits (p.takeWhile Char.isDigit) then none
  else if rest.head? ≠ some ':' then some rest
  else if 60 ≤ number bits (rest.tail.takeWhile Char.isDigit) then none
  else
    let rest := rest.tail.dropWhile Char.isDigit
    if rest.head? ≠ some ':' then some rest
    else if 60 ≤ number bits (rest.tail.takeWhile Char.isDigit) then none
    else some (rest.tail.dropWhile Char.isDigit)

/-- The loop over the parts of an `M` date, with the bounds of those left: what it writes and
where it ends. -/
def parts : List (Nat × Nat) → Text → Text × Option Text
  | [], p => ([], some p)
  | (low, high) :: bnds, p =>
    let digits := p.tail.takeWhile Char.isDigit
    let written := p.take (digits.length + 1)
    let rest := p.drop (digits.length + 1)
    if digits = [] ∨ number bits digits < low ∨ high < number bits digits then (written, none)
    else if bnds = [] then (written, some rest)
    else if rest.head? = some '.' then
      (written ++ (parts bnds rest).1, (parts bnds rest).2)
    else (written, none)

/-- What `parseDate` writes and where it returns. Only an `M` date gets its zero. -/
def parseDate (p : Text) : Text × Option Text :=
  if p.head? ≠ some 'M' then
    let lead := if p.head? = some 'J' then 1 else 0
    let digits := (p.drop lead).takeWhile Char.isDigit
    (p.take (lead + digits.length),
      if digits = [] ∨ number bits digits < lead ∨ 365 < number bits digits then none
      else some (p.drop (lead + digits.length)))
  else
    let (written, rest) := parts bits [(1, 12), (1, 5), (0, 6)] p
    (if rest = none then written else written ++ [nul], rest)

def afterTime (p : Text) : Option Text := if p.head? = some '/' then parseTime bits p.tail else some p

structure Statics where
  lastTZ : Cells
  buffer : Cells
  ntstr : Cells
  dststr : Cells

/-- The text of the rule, where the name before it, its offset and the length let it through. -/
def ruleText (p : Text) : Option Text :=
  (if p = [] ∨ p.head? = some ',' then some p else parseTime bits p).bind fun p =>
    if p.head? = some ',' ∧ p.tail.length ≤ ruleLen then some p.tail else none

def offset (p : Text) : Option Text := do
  let p ← zoneName p
  parseTime bits (if p.head? = some '-' ∨ p.head? = some '+' then p.tail else p)

end Parsers

variable {bits : Nat} {cells buffer : Cells} {p text : Text}

variable {rest : Text}

def secondDate (bits : Nat) (p : Text) : Option Text := do
  let rest ← (parseDate bits p).2
  let rest ← afterTime bits rest
  if rest.head? = some ',' then some rest.tail else none

/-- A date that is let through is one by month, week and weekday. -/
def ByMonth (bits : Nat) (p : Text) : Prop := (parseDate bits p).2 ≠ none → p.head? = some 'M'

/-- A rule with no other dates, the first of which does not fill the array by itself. -/
structure Ended (bits : Nat) (p : Text) : Prop where
  first : ByMonth bits p
  room : p.length = ruleLen → (parseDate bits p).2 ≠ some []
  second : ∀ rest, secondDate bits p = some rest → ByMonth bits rest

structure Sized (statics : Statics) : Prop where
  lastTZ : statics.lastTZ.length = 2 * ruleLen
  last : nul ∈ statics.lastTZ
  buffer : statics.buffer.length = ruleLen
  ntstr : statics.ntstr.length = tzLen + 1
  dststr : statics.dststr.length = tzLen + 1

/-- What the values may be: of a length other than that of the array, and with a rule, where
they have one that is looked at, whose dates are by month. -/
structure Sound (bits : Nat) (p : Text) : Prop where
  plain : nul ∉ p
  length : p.length ≠ 2 * ruleLen
  rule : ∀ dst names rule, offset bits p = some dst → zoneName dst = some names →
    ruleText bits names = some rule → Ended bits rule

/-- The arrays before the first value: the names are there, all else is zero. -/
def initial : Statics where
  lastTZ := List.replicate (2 * ruleLen) nul
  buffer := List.replicate ruleLen nul
  ntstr := ['G', 'M', 'T'] ++ List.replicate 8 nul
  dststr := ['G', 'D', 'T'] ++ List.replicate 8 nul

def centralEurope : Text := "CET-1CEST,M3.5.0,M10.5.0/3".toList

end AckFormal.Ansi.ParseTZ
