import Mathlib.Data.List.TakeWhile

/-!
# Data directives written by mcg

`data_block` in `mcg/data.c` splits a block of bytes into maximal runs.  A run
of text bytes becomes one quoted `.ascii` directive, every other run becomes
one `.data1` directive with a list of hexadecimal numbers.  The text written is
a list of bytes, in the order in which `fprintf` puts them into the file.
-/

namespace AckFormal.Mcg.Data

def isprint (c : UInt8) : Bool := 0x20 ≤ c && c ≤ 0x7e

/-- A byte that goes between quotes: printable and not the double quote. -/
def istext (c : UInt8) : Bool := isprint c && c != 0x22

def hexDigit (n : UInt8) : UInt8 := if n < 10 then 0x30 + n else 0x61 + (n - 10)

/-- `writehex(data, 1)` for an unsigned byte: the format is `0x%02lx`. -/
def writehex (data : UInt8) : List UInt8 :=
  [0x30, 0x78, hexDigit (data / 16), hexDigit (data % 16)]

def asciiOpen : List UInt8 := [0x09, 0x2e, 0x61, 0x73, 0x63, 0x69, 0x69, 0x20, 0x22]

def dataOpen : List UInt8 := [0x09, 0x2e, 0x64, 0x61, 0x74, 0x61, 0x31, 0x20]

def asciiLine (run : List UInt8) : List UInt8 :=
  if run = [] then [] else asciiOpen ++ run ++ [0x22, 0x0a]

def hexTail : List UInt8 → List UInt8
  | [] => []
  | byte :: rest => [0x2c, 0x20] ++ writehex byte ++ hexTail rest

def dataLine : List UInt8 → List UInt8
  | [] => []
  | byte :: rest => dataOpen ++ writehex byte ++ hexTail rest ++ [0x0a]

theorem length_dropWhile_le {α : Type} (p : α → Bool) (values : List α) :
    (values.dropWhile p).length ≤ values.length :=
  (List.dropWhile_sublist p).length_le

theorem block_tail_lt (first : UInt8) (rest : List UInt8) :
    (((first :: rest).dropWhile istext).dropWhile fun c => !istext c).length <
      (first :: rest).length := by
  cases text : istext first with
  | true =>
    rw [List.dropWhile_cons_of_pos text]
    exact Nat.lt_succ_of_le ((length_dropWhile_le _ _).trans (length_dropWhile_le istext rest))
  | false =>
    rw [List.dropWhile_cons_of_neg (by simp [text]), List.dropWhile_cons_of_pos (by simp [text])]
    exact Nat.lt_succ_of_le (length_dropWhile_le _ _)

/-- The loop of `data_block`: a text run, then a run of other bytes, until the end. -/
def dataBlock (data : List UInt8) : List UInt8 :=
  match data with
  | [] => []
  | first :: rest =>
    let afterText := (first :: rest).dropWhile istext
    asciiLine ((first :: rest).takeWhile istext) ++
      dataLine (afterText.takeWhile fun c => !istext c) ++
      dataBlock (afterText.dropWhile fun c => !istext c)
termination_by data.length
decreasing_by exact block_tail_lt first rest

theorem dataBlock_nil : dataBlock [] = [] := by rw [dataBlock]

theorem dataBlock_eq (data : List UInt8) :
    dataBlock data =
      asciiLine (data.takeWhile istext) ++
        dataLine ((data.dropWhile istext).takeWhile fun c => !istext c) ++
        dataBlock ((data.dropWhile istext).dropWhile fun c => !istext c) := by
  cases data with
  | nil => simp [asciiLine, dataLine]
  | cons first rest => rw [dataBlock]

end AckFormal.Mcg.Data
