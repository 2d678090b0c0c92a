import AckFormal.Lib.Lookahead
import Mathlib.Algebra.Ring.Nat

/-!
# Formatted input

`_doscan`. A character of the format is the value of a signed `char`; what `_doscan_get` answers for a
character of the input is an `int`, from 0 to 255 for a stream and the value of a `char` for `sscanf`.
The log of the reader has what is done to `inp_buf` and `Xtable` and what is assigned; the conversions of
the collected texts, by `strtol`, `strtoul` and `strtod`, are not modelled.
-/

namespace AckFormal.Ansi.Doscan

open Lib.Lookahead

def chr (c : Char) : Int := c.toNat

def EOF : Int := -1

def NUMLEN : Nat := 512

def NR_CHARS : Int := 256

/-- The bits of `__ctype` that matter here. -/
structure Class where
  space : Bool
  xdigit : Bool

/-- The widths of `int` and `long`, whether a pointer has the width of `long` but not of `int`, whether
there are conversions of floating-point numbers, and what lies around the table `__ctype`. -/
structure Machine where
  intBits : Nat
  longBits : Nat
  longPointer : Bool
  stdioFloat : Bool
  stray : Int → Class
  int_wide : 16 ≤ intBits
  int_long : intBits ≤ longBits

inductive Size where
  | short
  | int
  | long
  | longdouble
deriving DecidableEq

/-- What is stored through a pointer argument, a number by its text. -/
inductive Assigned where
  | integer (signed : Bool) (base : Nat) (text : List Int)
  | float (text : List Int)
  | chars (text : List Int) (terminated : Bool)

/-- What is done besides reading: `inp_buf[i] = c`, the use of `Xtable[i]`, the assignment of a
number of characters and the assignment of a converted field. -/
inductive Act where
  | put (i : Nat) (c : Int)
  | table (i : Int)
  | count (size : Size) (value : Int)
  | assign (size : Size) (assigned : Assigned)

abbrev Input := Reader Int Act

abbrev Collect := Field Int Act

variable (m : Machine)

/-! ## Character classes -/

def ctype (c : Int) : Class :=
  if c = EOF then ⟨false, false⟩
  else if 0 ≤ c ∧ c < NR_CHARS then
    ⟨c = 32 ∨ (9 ≤ c ∧ c ≤ 13),
      (48 ≤ c ∧ c ≤ 57) ∨ (65 ≤ c ∧ c ≤ 70) ∨ (97 ≤ c ∧ c ≤ 102)⟩
  else m.stray c

def isspace (c : Int) : Bool := (ctype m c).space

def isxdigit (c : Int) : Bool := (ctype m c).xdigit

def isdigit (c : Int) : Bool := 48 ≤ c ∧ c ≤ 57

/-! ## Numbers -/

def keep (f : Collect) : Collect := (f.acts [.put f.text.length f.c]).advance EOF

def keepWhile (ok : Int → Bool) (f : Collect) : Collect :=
  f.gather EOF (fun _ => []) ok (fun i c => [.put i c]) f.width

def isSign (c : Int) : Bool := c = chr '-' ∨ c = chr '+'

def startBase (type : Int) : Nat :=
  if type = chr 'i' ∨ type = chr 'p' ∨ type = chr 'x' ∨ type = chr 'X' then 16
  else if type = chr 'd' ∨ type = chr 'u' then 10
  else if type = chr 'o' then 8
  else 2

def inBase (base : Nat) (c : Int) : Bool :=
  (base = 10 ∧ isdigit c) ∨ (base = 16 ∧ isxdigit m c) ∨ (base = 8 ∧ isdigit c ∧ c < chr '8') ∨
    (base = 2 ∧ isdigit c ∧ c < chr '2')

/-- The sign of `o_collect` and of `f_collect`. -/
def keepSign (f : Collect) : Collect := if isSign f.c then keep f else f

def keepPrefix (type : Int) (f : Collect) : Nat × Collect :=
  if f.width ≠ 0 ∧ f.c = chr '0' ∧ startBase type = 16 then
    let f := keep f
    if f.c ≠ chr 'x' ∧ f.c ≠ chr 'X' then (if type = chr 'i' then 8 else 16, f)
    else (16, if f.width ≠ 0 then keep f else f)
  else (if type = chr 'i' then 10 else startBase type, f)

/-- `o_collect` before it pushes back the character ahead. -/
def oCollect (type : Int) (f : Collect) : Nat × Collect :=
  let (base, f) := keepPrefix type (keepSign f)
  (if type = chr 'i' then 0 else base, keepWhile (inBase m base) f)

def keepMantissa (f : Collect) : Collect :=
  let f := keepWhile isdigit f
  if f.width ≠ 0 ∧ f.c = chr '.' then keepWhile isdigit (keep f) else f

def keepExponent (f : Collect) : Bool × Collect :=
  let f := keep f
  let f := if f.width ≠ 0 ∧ isSign f.c then keep f else f
  let g := keepWhile isdigit f
  (f.text.length < g.text.length, g)

/-- `f_collect` before it pushes back the character ahead; it fails if there are no digits. -/
def fCollect (f : Collect) : Bool × Collect :=
  let f := keepSign f
  let g := keepMantissa f
  if g.text.countP isdigit = 0 then (false, g)
  else if g.width ≠ 0 ∧ (g.c = chr 'e' ∨ g.c = chr 'E') then keepExponent g
  else (true, g)

/-! ## Specifications -/

def peek (format : List Int) : Int := format.headD 0

/-- What stands between `%` and the letter of the conversion, and the format from that letter. -/
structure Spec where
  noassign : Bool
  width : Option Nat
  size : Option Size
  rest : List Int

def Spec.kind (spec : Spec) : Int := peek spec.rest

def widthOf (digits : List Int) : Nat :=
  digits.foldl (fun width d => (width * 10 + (d - chr '0').toNat) % 2 ^ m.intBits) 0

def readSpec (format : List Int) : Spec :=
  let noassign : Bool := peek format = chr '*'
  let format := if noassign then format.tail else format
  let width := if isdigit (peek format) then some (widthOf m (format.takeWhile isdigit)) else none
  let format := format.dropWhile isdigit
  if peek format = chr 'h' then ⟨noassign, width, some .short, format.tail⟩
  else if peek format = chr 'l' then ⟨noassign, width, some .long, format.tail⟩
  else if peek format = chr 'L' then ⟨noassign, width, some .longdouble, format.tail⟩
  else ⟨noassign, width, none, format⟩

def Spec.intSize (spec : Spec) : Size :=
  if spec.kind = chr 'p' ∧ m.longPointer then .long
  else if spec.size = some .short then .short
  else if spec.size = some .long then .long
  else .int

inductive Kind where
  | count
  | integer
  | chars
  | string
  | scanset
  | float
  | other

def kindOf (kind : Int) : Kind :=
  if kind = chr 'n' then .count
  else if kind ∈ ['p', 'b', 'd', 'i', 'o', 'u', 'x', 'X'].map chr then .integer
  else if kind = chr 'c' then .chars
  else if kind = chr 's' then .string
  else if kind = chr '[' then .scanset
  else if m.stdioFloat ∧ kind ∈ ['e', 'E', 'f', 'g', 'G'].map chr then .float
  else .other

/-! ## Scan sets -/

abbrev Table := Int → Bool

def mark (i : Int) (table : Table) : Table := fun c =>
  decide (c = i ∧ 0 ≤ i ∧ i < NR_CHARS) || table c

def between (first last : Int) : List Int :=
  (List.range (last - first).toNat).map fun k : Nat => first + 1 + (k : Int)

/-- The loop over the set: what is marked, in this order, and the format after it. -/
def scanLoop : List Int → List Int × List Int
  | [] => ([], [])
  | [a] => if a = 0 ∨ a = chr ']' then ([], [a]) else ([a], [])
  | [a, d] =>
    if a = 0 ∨ a = chr ']' then ([], [a, d])
    else if d = chr '-' then ([a, chr '-'], [])
    else
      let (marks, rest) := scanLoop [d]
      (a :: marks, rest)
  | a :: d :: b :: rest =>
    if a = 0 ∨ a = chr ']' then ([], a :: d :: b :: rest)
    else if d = chr '-' then
      if b ≠ 0 ∧ b ≠ chr ']' ∧ a ≤ b then
        let (marks, rest) := scanLoop rest
        (a :: between a b ++ marks, rest)
      else
        let (marks, rest) := scanLoop (b :: rest)
        (a :: chr '-' :: marks, rest)
    else
      let (marks, rest) := scanLoop (d :: b :: rest)
      (a :: marks, rest)

/-- The set from the character after `[`: whether it is reversed, what is marked and the format
after it. -/
def readSet (format : List Int) : Bool × List Int × List Int :=
  let reverse : Bool := peek format = chr '^'
  let format := if reverse then format.tail else format
  if peek format = chr ']' then
    let (marks, rest) := scanLoop format.tail
    (reverse, chr ']' :: marks, rest)
  else (reverse, scanLoop format)

def markAll (marks : List Int) : Table := marks.foldl (fun table i => mark i table) fun _ => false

/-! ## The loop -/

structure State where
  format : List Int
  reader : Input
  nrchars : Int
  conv : Nat
  done : Nat
  ic : Int

/-- One turn of the loop; white space in the format is a turn of its own. -/
inductive Turn where
  | next (s : State)
  | stop (s : State) (value : Int)

def Machine.int (n : Int) : Int := n.bmod (2 ^ m.intBits)

def Machine.store (size : Size) (n : Int) : Int :=
  match size with
  | .short => n.bmod (2 ^ 16)
  | .long => n.bmod (2 ^ m.longBits)
  | _ => m.int n

def State.value (s : State) : Int := if s.conv ≠ 0 ∨ s.ic ≠ EOF then s.done else EOF

def State.get (s : State) : State :=
  { s with reader := (s.reader.get EOF).2, ic := (s.reader.get EOF).1 }

def State.count (s : State) (n : Int) : State := { s with nrchars := m.int (s.nrchars + n) }

def State.unget (s : State) : State :=
  if s.ic ≠ EOF then { s with reader := s.reader.unget s.ic } else s

/-- Reads until a character is not white space, and counts every call. -/
def State.blanks (s : State) : State :=
  let (ic, reader, calls) := skip EOF (isspace m) s.reader.unread s.reader.log 0
  { s with reader := reader, ic := ic, nrchars := m.int (s.nrchars + calls) }

def State.converted (s : State) (noassign : Bool) (rest : List Int) : State :=
  { s with format := rest.tail, conv := s.conv + 1, done := s.done + if noassign then 0 else 1 }

def State.assign (s : State) (noassign : Bool) (size : Size) (assigned : Assigned) : State :=
  if noassign then s else { s with reader := s.reader.acts [.assign size assigned] }

/-- The end of a field of characters: the character that ended it is pushed back and not counted. -/
def State.finish (s : State) (f : Collect) : State :=
  { s with
    reader := f.giveBack EOF
    ic := f.c
    nrchars := m.int (s.nrchars + f.more - if f.width = 0 then 0 else 1) }

def numberWidth (width : Option Nat) : Nat :=
  match width with
  | some width => if NUMLEN < width then NUMLEN else width
  | none => NUMLEN

def noNumber (text : List Int) : Bool := text = [] ∨ (text.length = 1 ∧ isSign (peek text))

/-- The conversion of an integer, with its first character in `ic`. -/
def integer (spec : Spec) (s : State) : Turn :=
  let width := numberWidth spec.width
  if width = 0 then .stop s s.done
  else
    let (base, f) := oCollect m spec.kind (.start s.ic width s.reader)
    let s := { s with reader := (f.giveBack EOF).acts [.put f.text.length 0] }
    if noNumber f.text then .stop s s.done
    else
      let s := s.count m (f.text.length - 1)
      let signed : Bool := spec.kind = chr 'd' ∨ spec.kind = chr 'i'
      .next ((s.assign spec.noassign (spec.intSize m) (.integer signed base f.text)).converted
        spec.noassign spec.rest)

def float (spec : Spec) (s : State) : Turn :=
  let width := numberWidth spec.width
  if width = 0 then .stop s s.done
  else
    let (whole, f) := fCollect (.start s.ic width s.reader)
    let s := { s with reader := f.giveBack EOF }
    if whole then
      let s := { s with reader := s.reader.acts [.put f.text.length 0] }
      if noNumber f.text then .stop s s.done
      else
        let s := s.count m (f.text.length - 1)
        .next ((s.assign spec.noassign (spec.size.getD .int) (.float f.text)).converted
          spec.noassign spec.rest)
    else .stop s s.done

def chars (spec : Spec) (s : State) : Turn :=
  let width := spec.width.getD 1
  if width = 0 then .stop s s.done
  else
    let f := (Field.start s.ic width s.reader).gather EOF (fun _ => []) (fun c => c ≠ EOF)
      (fun _ _ => []) width
    .next (((s.finish m f).assign spec.noassign .int (.chars f.text false)).converted spec.noassign
      spec.rest)

def string (spec : Spec) (s : State) : Turn :=
  let width := spec.width.getD 0xffff
  if width = 0 then .stop s s.done
  else
    let f := (Field.start s.ic width s.reader).gather EOF (fun _ => [])
      (fun c => c ≠ EOF ∧ ¬isspace m c) (fun _ _ => []) width
    .next (((s.finish m f).assign spec.noassign .int (.chars f.text true)).converted spec.noassign
      spec.rest)

def scanset (spec : Spec) (s : State) : Turn :=
  let width := spec.width.getD 0xffff
  if width = 0 then .stop s s.done
  else
    let (reverse, marks, rest) := readSet spec.rest.tail
    let s := { s with reader := s.reader.acts (marks.map .table) }
    if peek rest = 0 then .stop s.unget s.done
    else
      let inside (c : Int) : Bool := c ≠ EOF ∧ (markAll marks c != reverse)
      let s := { s with reader := s.reader.acts [.table s.ic] }
      if inside s.ic then
        let f := ((Field.start s.ic width s.reader).advance EOF).gather EOF
          (fun c => if c = EOF then [] else [.table c]) inside (fun _ _ => []) (width - 1)
        .next (((s.finish m f).assign spec.noassign .int (.chars f.text true)).converted
          spec.noassign rest)
      else .stop s.unget s.done

def count (spec : Spec) (s : State) : Turn :=
  let s := if spec.noassign then s else
    { s with reader := s.reader.acts [.count (spec.intSize m) (m.store (spec.intSize m) s.nrchars)] }
  .next { s with format := spec.rest.tail, conv := s.conv + 1 }

def conversion (spec : Spec) (s : State) : Turn :=
  match kindOf m spec.kind with
  | .count => count m spec s
  | .chars =>
    let s := s.get
    if s.ic = EOF then .stop s s.value else chars m spec (s.count m 1)
  | .scanset =>
    let s := s.get
    if s.ic = EOF then .stop s s.value else scanset m spec (s.count m 1)
  | kind =>
    let s := s.blanks m
    if s.ic = EOF then .stop s s.value
    else
      match kind with
      | .integer => integer m spec s
      | .float => float m spec s
      | .string => string m spec s
      | _ => .stop s s.value

def turn (s : State) : Turn :=
  if isspace m (peek s.format) then
    let s := (s.blanks m).unget.count m (-1)
    .next { s with format := s.format.dropWhile (isspace m) }
  else if peek s.format = 0 then .stop s s.value
  else if peek s.format ≠ chr '%' then
    let s := s.get.count m 1
    if s.ic = peek s.format then
      .next { s with format := s.format.tail, reader := s.reader.take s.ic }
    else .stop (s.unget.count m (-1)) s.value
  else if peek s.format.tail = chr '%' then
    let s := s.get.count m 1
    if s.ic = chr '%' then
      .next { s with format := s.format.tail.tail, reader := s.reader.take s.ic }
    else .stop s s.value
  else conversion m (readSpec m s.format.tail) s

def loop : Nat → State → Option (State × Int)
  | 0, _ => none
  | n + 1, s =>
    match turn m s with
    | .next s => loop n s
    | .stop s value => some (s, value)

/-- `ic` has no value yet when the loop is entered. -/
def start (ic : Int) (format input : List Int) : State := ⟨format, ⟨input, []⟩, 0, 0, 0, ic⟩

def doscan (ic : Int) (format input : List Int) : Option (State × Int) :=
  if peek format = 0 then some (start ic format input, 0)
  else loop m (format.length + 1) (start ic format input)

end AckFormal.Ansi.Doscan
