import AckFormal.Lib.Area
import Mathlib.Data.List.TakeWhile

/-!
# Reading string constants of readable EM

The functions `getescape` and `getstring` of `modules/src/read_em/reade.c`.  The
input is the list of bytes still to be read; `ungetbyte` puts back the byte that
was read last, so the list is left as it was.  The characters of a string go to
an array that is kept between the calls and made larger by 256 bytes when a
character does not fit.  The nul behind the string is stored without a look at
the size.
-/

namespace AckFormal.ReadEm

open Lib

/-- The static `string` between two calls: `maxlen` is 0 as long as there is no array. -/
structure StringArea where
  maxlen : Nat
  pieces : 256 ∣ maxlen

/-- The size of the array once the first call has asked for memory. -/
def StringArea.size (s : StringArea) : Nat := if s.maxlen = 0 then 256 else s.maxlen

/-- The last digits of a numeric escape, at most `j` of them. -/
def moreDigits : Nat → UInt8 → List UInt8 → UInt8 × List UInt8
  | 0, r, rest => (r, rest)
  | _ + 1, r, [] => (r, [])
  | j + 1, r, c :: rest =>
    if c < 0x30 ∨ 0x37 < c then (r, c :: rest)
    else moreDigits j (r <<< 3 + (c - 0x30)) rest

/-- What a backslash stands for.  Only the low byte of the result is used; at the
end of the input it is that of `EOF`. -/
def getescape : List UInt8 → UInt8 × List UInt8
  | [] => (0xff, [])
  | c :: rest =>
    if 0x30 ≤ c ∧ c ≤ 0x37 then moreDigits 2 (c - 0x30) rest
    else if c = 0x62 then (0x08, rest)
    else if c = 0x66 then (0x0c, rest)
    else if c = 0x6e then (0x0a, rest)
    else if c = 0x72 then (0x0d, rest)
    else if c = 0x74 then (0x09, rest)
    else (c, rest)

theorem moreDigits_length_le (j : Nat) (r : UInt8) (input : List UInt8) :
    (moreDigits j r input).2.length ≤ input.length := by
  induction j generalizing r input with
  | zero => exact Nat.le_refl _
  | succ j ih =>
    cases input with
    | nil => exact Nat.le_refl _
    | cons c rest =>
      unfold moreDigits
      split
      · exact Nat.le_refl _
      · exact (ih _ rest).trans (Nat.le_succ _)

theorem getescape_length_le (input : List UInt8) :
    (getescape input).2.length ≤ input.length := by
  cases input with
  | nil => exact Nat.le_refl _
  | cons c rest =>
    simp only [getescape]
    split
    · exact (moreDigits_length_le 2 _ rest).trans (Nat.le_succ _)
    · repeat' split
      all_goals exact Nat.le_succ _

/-- A string that has been read, the input behind it, and whether `syntax` was
called for it. -/
structure Scanned where
  string : Area UInt8
  rest : List UInt8
  error : Bool

/-- `syntax` skips the input up to the end of the line. -/
def skipLine (input : List UInt8) : List UInt8 := input.dropWhile (· ≠ 0x0a)

/-- The nul behind the string; `s->length` does not count it. -/
def terminate (s : Area UInt8) (rest : List UInt8) (error : Bool) : Option Scanned := do
  let _ ← s.store 0
  some ⟨s, rest, error⟩

def makeRoom (s : Area UInt8) : Area UInt8 :=
  if s.size ≤ s.text.length then s.grow 256 else s

def scan (termc : UInt8) (s : Area UInt8) (input : List UInt8) : Option Scanned :=
  match input with
  | [] => terminate s [] true
  | c :: rest =>
    if c = 0x0a then terminate s (skipLine (c :: rest)) true
    else if c = termc then
      if termc = 0x22 then do
        let s ← s.store 0
        terminate s rest false
      else terminate s rest false
    else if c = 0x5c then do
      let s ← (makeRoom s).store (getescape rest).1
      scan termc s (getescape rest).2
    else do
      let s ← (makeRoom s).store c
      scan termc s rest
termination_by input.length
decreasing_by
  · exact Nat.lt_succ_of_le (getescape_length_le rest)
  · exact Nat.lt_succ_self _

/-- `getstring`; the first byte is the quote that ends the string as well. -/
def getstring (string : StringArea) : List UInt8 → Option Scanned
  | [] => terminate (Area.empty string.size) [] true
  | termc :: rest => scan termc (Area.empty string.size) rest

theorem makeRoom_room (s : Area UInt8) : (makeRoom s).text.length < (makeRoom s).size := by
  unfold makeRoom
  split
  · have := s.fits
    simp only [Area.grow]
    omega
  · omega

theorem makeRoom_text (s : Area UInt8) : (makeRoom s).text = s.text := by
  unfold makeRoom
  split <;> rfl

/-- The array with one more character, after the check for room. -/
def put (s : Area UInt8) (c : UInt8) : Area UInt8 :=
  ⟨(makeRoom s).size, s.text ++ [c], by
    have room := makeRoom_room s
    rw [makeRoom_text] at room
    rw [List.length_append]
    exact room⟩

theorem store_put (s : Area UInt8) (c : UInt8) : (makeRoom s).store c = some (put s c) := by
  unfold Area.store
  rw [dif_pos (makeRoom_room s)]
  exact congrArg some (Area.ext rfl (congrArg (· ++ [c]) (makeRoom_text s)))

theorem scan_single (s : Area UInt8) (rest : List UInt8) :
    scan 0x27 s (0x27 :: rest) = terminate s rest false := by
  rw [scan, if_neg (by decide), if_pos rfl, if_neg (by decide)]

theorem scan_escape {termc : UInt8} (quote : termc ≠ 0x5c) (s : Area UInt8) (rest : List UInt8) :
    scan termc s (0x5c :: rest) =
      scan termc (put s (getescape rest).1) (getescape rest).2 := by
  rw [scan, if_neg (by decide), if_neg (Ne.symm quote), if_pos rfl, store_put]
  rfl

theorem scan_plain {termc c : UInt8} (line : c ≠ 0x0a) (quote : c ≠ termc) (escape : c ≠ 0x5c)
    (s : Area UInt8) (rest : List UInt8) :
    scan termc s (c :: rest) = scan termc (put s c) rest := by
  rw [scan, if_neg line, if_neg quote, if_neg escape, store_put]
  rfl

theorem put_size (s : Area UInt8) (c : UInt8) :
    (put s c).size = if s.size ≤ s.text.length then s.size + 256 else s.size := by
  simp only [put, makeRoom]
  split <;> rfl

end AckFormal.ReadEm
