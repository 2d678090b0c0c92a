import AckFormal.Lib.Area
import Mathlib.Data.BitVec
import Mathlib.Tactic.IntervalCases

/-!
# Reading strings of compact EM

The function `getstring` of `modules/src/read_em/readk.c`, compiled with `CHECKING`.  The
length in front of a string comes from `getarg`; the bytes go to an array that is kept between
the calls.  The array is made larger before the bytes are read, never for the nul behind them.
-/

namespace AckFormal.ReadEm.Compact

open Lib

/-- `string` between two calls; `maxlen` is the size of the array, 0 when there is none. -/
structure Kept where
  maxlen : BitVec 32

def Kept.start : Kept := ⟨0⟩

def toInt (cst : Int) : Int := cst.bmod (2 ^ 32)

def room (maxlen n : BitVec 32) : BitVec 32 :=
  if maxlen < n then if maxlen = 0 then 256 else (n + 255) &&& ~~~(255 : BitVec 32) else maxlen

/-- The next `count` bytes; at the end of the input they are those of `EOF`. -/
def getbytes (count : Nat) (input : List UInt8) : List UInt8 :=
  (input ++ List.replicate count 0xff).take count

structure Read where
  length : Nat
  str : Area UInt8

/-- `getstring`; a write behind the array has no result. -/
def getstring (s : Kept) (cst : Int) (input : List UInt8) : Option (Kept × Read) :=
  let n := toInt cst
  -- xerror("Negative length in string")
  if n < 0 then some (s, ⟨0, Area.empty s.maxlen.toNat⟩)
  else do
    let maxlen := room s.maxlen (BitVec.ofInt 32 n)
    let str ← (Area.empty maxlen.toNat).storeAll (getbytes n.toNat input)
    let str ← str.store 0
    some (⟨maxlen⟩, ⟨n.toNat, str⟩)

/-- Calls one after another, each with the constant and the input it reads. -/
def getstrings (s : Kept) : List (Int × List UInt8) → Option (List Read)
  | [] => some []
  | (cst, input) :: rest => do
      let (s, read) ← getstring s cst input
      let reads ← getstrings s rest
      some (read :: reads)

/-! ### The size of the array -/

theorem and_not_255 (x : BitVec 32) :
    (x &&& ~~~(255 : BitVec 32)).toNat = x.toNat / 256 * 256 := by
  have shifted : x &&& ~~~(255 : BitVec 32) = (x >>> 8) <<< 8 := by
    ext i bound
    interval_cases i <;> simp
  rw [shifted, BitVec.toNat_shiftLeft, BitVec.toNat_ushiftRight, Nat.shiftRight_eq_div_pow,
    Nat.shiftLeft_eq]
  omega

/-- `n` bytes and a nul fit: the array there is is long enough, or the first array is asked for
and 256 bytes do, or the array is made larger and the new size is not `n` itself. -/
def Fits (maxlen n : Nat) : Prop :=
  n < maxlen ∨ (maxlen = 0 ∧ 0 < n ∧ n < 256) ∨ (maxlen ≠ 0 ∧ maxlen < n ∧ ¬256 ∣ n)

instance (maxlen n : Nat) : Decidable (Fits maxlen n) :=
  inferInstanceAs (Decidable (_ ∨ _ ∨ _))

theorem lt_room_iff (maxlen : BitVec 32) {n : Nat} (bound : n < 2 ^ 31) :
    n < (room maxlen (BitVec.ofNat 32 n)).toNat ↔ Fits maxlen.toNat n := by
  have value : (BitVec.ofNat 32 n).toNat = n := by
    exact Nat.mod_eq_of_lt (by omega)
  have empty : maxlen = 0 ↔ maxlen.toNat = 0 :=
    ⟨fun none => by rw [none]; rfl, fun none => BitVec.eq_of_toNat_eq none⟩
  have larger : ((BitVec.ofNat 32 n + 255) &&& ~~~(255 : BitVec 32)).toNat =
      (n + 255) / 256 * 256 := by
    rw [and_not_255, BitVec.toNat_add, value]
    exact congrArg (· / 256 * 256) (Nat.mod_eq_of_lt (show n + 255 < 2 ^ 32 by omega))
  have less : maxlen < BitVec.ofNat 32 n ↔ maxlen.toNat < n := by
    rw [BitVec.lt_def, value]
  unfold room Fits
  by_cases grows : maxlen.toNat < n
  · rw [if_pos (less.mpr grows)]
    by_cases first : maxlen = 0
    · rw [if_pos first, show (256 : BitVec 32).toNat = 256 from rfl]
      have zero := empty.mp first
      omega
    · rw [if_neg first, larger]
      have some_ := mt empty.mpr first
      omega
  · rw [if_neg (mt less.mp grows)]
    omega

/-! ### One call and a sequence of calls -/

theorem getbytes_length (count : Nat) (input : List UInt8) :
    (getbytes count input).length = count := by
  simp [getbytes]

def Read.string (r : Read) : List UInt8 := r.str.text.take r.length

def bytesRead (call : Int × List UInt8) : List UInt8 := getbytes (toInt call.1).toNat call.2

theorem getstring_negative {cst : Int} (negative : toInt cst < 0) (s : Kept)
    (input : List UInt8) :
    getstring s cst input = some (s, ⟨0, Area.empty s.maxlen.toNat⟩) := if_pos negative

def Kept.after (s : Kept) (cst : Int) : Kept := ⟨room s.maxlen (BitVec.ofInt 32 (toInt cst))⟩

section

variable {cst : Int} (length : 0 ≤ toInt cst) (s : Kept)
include length s

theorem lt_after_iff :
    (toInt cst).toNat < (s.after cst).maxlen.toNat ↔
      Fits s.maxlen.toNat (toInt cst).toNat := by
  have bound : (toInt cst).toNat < 2 ^ 31 := by
    have below := @Int.bmod_lt cst (2 ^ 32) (by decide)
    unfold toInt at length ⊢
    omega
  have constant : BitVec.ofInt 32 (toInt cst) = BitVec.ofNat 32 (toInt cst).toNat := by
    rw [← BitVec.ofInt_natCast, Int.toNat_of_nonneg length]
  rw [← lt_room_iff s.maxlen bound, ← constant]
  rfl

theorem getstring_bytes (input : List UInt8) :
    getstring s cst input =
      ((Area.empty (s.after cst).maxlen.toNat).storeAll (bytesRead (cst, input))).bind fun str =>
        (str.store 0).bind fun str => some (s.after cst, ⟨(toInt cst).toNat, str⟩) := by
  rw [getstring, if_neg (Int.not_lt.mpr length)]
  rfl

/-- Where the bytes and the nul fit, the call returns the bytes. -/
theorem getstring_of_fits (input : List UInt8)
    (fits : Fits s.maxlen.toNat (toInt cst).toNat) :
    ∃ read, getstring s cst input = some (s.after cst, read) ∧
      read.string = bytesRead (cst, input) := by
  have space := (lt_after_iff length s).mpr fits
  have count : (bytesRead (cst, input)).length = (toInt cst).toNat := getbytes_length _ _
  have bytesFit : ((Area.empty (s.after cst).maxlen.toNat).storeAll
      (bytesRead (cst, input))).isSome = true := by
    rw [Area.storeAll_isSome, count]
    simpa [Area.empty] using space.le
  obtain ⟨str, stored⟩ := Option.isSome_iff_exists.mp bytesFit
  obtain ⟨size, text⟩ := Area.storeAll_some stored
  have nulFits : (str.store 0).isSome = true := by
    rw [Area.store_isSome, size, text, List.length_append, count]
    simpa [Area.empty] using space
  obtain ⟨ended, stored'⟩ := Option.isSome_iff_exists.mp nulFits
  refine ⟨⟨(toInt cst).toNat, ended⟩, ?_, ?_⟩
  · rw [getstring_bytes length, stored, Option.bind_some, stored', Option.bind_some]
  · rw [Read.string, (Area.store_some stored').2, text, ← count]
    simp [Area.empty]

/-- Otherwise the nul, or a byte before it, is written behind the array. -/
theorem getstring_of_not_fits
    (input : List UInt8) (outside : ¬Fits s.maxlen.toNat (toInt cst).toNat) :
    getstring s cst input = none := by
  have space := mt (lt_after_iff length s).mp outside
  have count : (bytesRead (cst, input)).length = (toInt cst).toNat := getbytes_length _ _
  rw [getstring_bytes length, Option.bind_eq_none_iff]
  intro str stored
  obtain ⟨size, text⟩ := Area.storeAll_some stored
  have full : ¬(str.store 0).isSome = true := by
    rw [Area.store_isSome, size, text, List.length_append, count]
    simpa [Area.empty] using space
  rw [Option.not_isSome_iff_eq_none.mp full, Option.bind_none]

end

/-- Every length of a sequence of calls fits the array that the calls before it have left. -/
def AllFit (s : Kept) : List (Int × List UInt8) → Prop
  | [] => True
  | (cst, _) :: rest =>
    if toInt cst < 0 then AllFit s rest
    else Fits s.maxlen.toNat (toInt cst).toNat ∧ AllFit (s.after cst) rest

theorem getstrings_cons (s : Kept) (cst : Int) (input : List UInt8)
    (rest : List (Int × List UInt8)) :
    getstrings s ((cst, input) :: rest) =
      (getstring s cst input).bind fun called =>
        (getstrings called.1 rest).bind fun reads => some (called.2 :: reads) := rfl

theorem getstrings_read {s s' : Kept} {cst : Int} {input : List UInt8} {read : Read}
    (called : getstring s cst input = some (s', read))
    (bytes : read.string = bytesRead (cst, input)) (rest : List (Int × List UInt8)) :
    (getstrings s ((cst, input) :: rest)).map (List.map Read.string) =
        some (((cst, input) :: rest).map bytesRead) ↔
      (getstrings s' rest).map (List.map Read.string) = some (rest.map bytesRead) := by
  rw [getstrings_cons, called, Option.bind_some]
  cases getstrings s' rest with
  | none => simp
  | some reads => simp [bytes]

theorem getstrings_of_kept (s : Kept) (calls : List (Int × List UInt8)) :
    (getstrings s calls).map (List.map Read.string) = some (calls.map bytesRead) ↔
      AllFit s calls := by
  induction calls generalizing s with
  | nil => exact ⟨fun _ => trivial, fun _ => rfl⟩
  | cons call rest ih =>
    obtain ⟨cst, input⟩ := call
    rw [AllFit]
    by_cases negative : toInt cst < 0
    · have nothing : bytesRead (cst, input) = [] := by
        rw [← List.length_eq_zero_iff, bytesRead, getbytes_length]
        exact Int.toNat_eq_zero.mpr negative.le
      rw [if_pos negative, getstrings_read (getstring_negative negative s input) nothing.symm]
      exact ih s
    · rw [if_neg negative]
      have length := Int.not_lt.mp negative
      by_cases fits : Fits s.maxlen.toNat (toInt cst).toNat
      · obtain ⟨read, called, bytes⟩ := getstring_of_fits length s input fits
        rw [getstrings_read called bytes, ih, and_iff_right fits]
      · rw [getstrings_cons, getstring_of_not_fits length s input fits, Option.bind_none]
        exact iff_of_false nofun fun both => fits both.1

/-- The strings are read, and no byte is written outside the array, exactly when every length
fits when its turn comes. -/
theorem getstrings_iff (calls : List (Int × List UInt8)) :
    (getstrings Kept.start calls).map (List.map Read.string) = some (calls.map bytesRead) ↔
      AllFit Kept.start calls := getstrings_of_kept Kept.start calls

/-- The nul of a first string of 256 bytes goes behind the first array. -/
theorem getstrings_first_256 :
    ¬(getstrings Kept.start [(256, List.replicate 256 0x61)]).map (List.map Read.string) =
      some ([(256, List.replicate 256 0x61)].map bytesRead) := by
  rw [getstrings_cons, getstring_of_not_fits (by decide) Kept.start _ (by decide)]
  nofun

end AckFormal.ReadEm.Compact
