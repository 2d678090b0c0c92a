import Mathlib.Data.UInt
import Mathlib.Tactic.IntervalCases

/-!
# Bytes as strings and back

The functions `bts2str` and `str2bts` of `modules/src/string`.  A string is the list of its
characters with the nul behind them.
-/

namespace AckFormal.AckString

/-- The difference is taken as an unsigned number, so that what is before the space is large. -/
def is_print (c : UInt8) : Bool := c - 0x20 ≤ 0x7e - 0x20

def is_oct (c : UInt8) : Bool := 0x30 ≤ c && c ≤ 0x37

/-- The characters that `bts2str` writes for one byte. -/
def escaped (f : UInt8) : List UInt8 :=
  if is_print f then if f = 0x5c ∨ f = 0x22 then [0x5c, f] else [f]
  else [0x5c, (f >>> 6 &&& 3) + 0x30, (f >>> 3 &&& 7) + 0x30, (f &&& 7) + 0x30]

def bts2str : List UInt8 → List UInt8
  | [] => [0]
  | f :: b => escaped f ++ bts2str b

/-- The loop over the digits of an escape; `str` is the digit at hand. -/
def octal (cnt : Nat) (oct str : UInt8) (rest : List UInt8) : UInt8 × List UInt8 :=
  let oct := oct * 8 + (str - 0x30)
  match rest with
  | [] => (oct, [])
  | next :: rest =>
    if is_oct next && cnt + 1 < 3 then octal (cnt + 1) oct next rest else (oct, next :: rest)

theorem octal_length_le (cnt : Nat) (oct str : UInt8) (rest : List UInt8) :
    (octal cnt oct str rest).2.length ≤ rest.length := by
  induction rest generalizing cnt oct str with
  | nil => exact Nat.le_refl _
  | cons next rest ih =>
    unfold octal
    dsimp only
    split
    · exact (ih _ _ _).trans (Nat.le_succ _)
    · exact Nat.le_refl _

/-- What stands behind a backslash: the byte and the rest of the string. -/
def unescape (c : UInt8) (rest : List UInt8) : UInt8 × List UInt8 :=
  if c = 0x62 then (0x08, rest)
  else if c = 0x66 then (0x0c, rest)
  else if c = 0x6e then (0x0a, rest)
  else if c = 0x72 then (0x0d, rest)
  else if c = 0x74 then (0x09, rest)
  else if is_oct c then octal 0 0 c rest
  else (c, rest)

theorem unescape_length_le (c : UInt8) (rest : List UInt8) :
    (unescape c rest).2.length ≤ rest.length := by
  unfold unescape
  repeat' split
  all_goals first
    | exact Nat.le_refl _
    | exact octal_length_le 0 0 c rest

/-- The loop of `str2bts`.  A string without a nul is read past its end, which has no result. -/
def strip : List UInt8 → Option (List UInt8)
  | [] => none
  | [c] => if c = 0 then some [0] else none
  | c :: next :: rest =>
    if c = 0 then some [0]
    else if c = 0x5c then
      (strip (unescape next rest).2).map ((unescape next rest).1 :: ·)
    else (strip (next :: rest)).map (c :: ·)
termination_by str => str.length
decreasing_by
  · have shorter := unescape_length_le next rest
    simp only [List.length_cons]
    omega
  · simp

/-- The bytes with the nul behind them, and `*pn`, which counts the nul. -/
def str2bts (str : List UInt8) : Option (List UInt8 × Nat) :=
  (strip str).map fun bts => (bts, bts.length)

/-! ### One byte there and back -/

theorem strip_nul : strip [0] = some [0] := by
  rw [strip, if_pos rfl]

theorem strip_escape (next : UInt8) (rest : List UInt8) :
    strip (0x5c :: next :: rest) =
      (strip (unescape next rest).2).map ((unescape next rest).1 :: ·) := by
  rw [strip, if_neg (by decide), if_pos rfl]

theorem strip_plain {c : UInt8} (char : c ≠ 0) (plain : c ≠ 0x5c) {rest : List UInt8}
    (more : rest ≠ []) : strip (c :: rest) = (strip rest).map (c :: ·) := by
  cases rest with
  | nil => exact absurd rfl more
  | cons next rest => rw [strip, if_neg char, if_neg plain]

def worth (d1 d2 d3 : UInt8) : UInt8 :=
  ((0 * 8 + (d1 - 0x30)) * 8 + (d2 - 0x30)) * 8 + (d3 - 0x30)

theorem escaped_digits (f : UInt8) :
    (is_oct ((f >>> 6 &&& 3) + 0x30) = true ∧ is_oct ((f >>> 3 &&& 7) + 0x30) = true ∧
      is_oct ((f &&& 7) + 0x30) = true) ∧
    worth ((f >>> 6 &&& 3) + 0x30) ((f >>> 3 &&& 7) + 0x30) ((f &&& 7) + 0x30) = f := by
  have facts : ∀ n : Fin 256,
      let f := UInt8.ofNat n
      (is_oct ((f >>> 6 &&& 3) + 0x30) = true ∧ is_oct ((f >>> 3 &&& 7) + 0x30) = true ∧
        is_oct ((f &&& 7) + 0x30) = true) ∧
      worth ((f >>> 6 &&& 3) + 0x30) ((f >>> 3 &&& 7) + 0x30) ((f &&& 7) + 0x30) = f := by
    decide +kernel
  simpa using facts ⟨f.toNat, f.toNat_lt⟩

theorem unescape_octal {c : UInt8} (digit : is_oct c = true) (rest : List UInt8) :
    unescape c rest = octal 0 0 c rest := by
  unfold unescape
  repeat rw [if_neg (by rintro rfl; exact absurd digit (by decide))]
  rw [if_pos digit]

theorem octal_three {d1 d2 d3 : UInt8} (second : is_oct d2 = true) (third : is_oct d3 = true)
    (rest : List UInt8) :
    octal 0 0 d1 (d2 :: d3 :: rest) = (worth d1 d2 d3, rest) := by
  rw [octal, if_pos (by rw [second]; rfl), octal, if_pos (by rw [third]; rfl)]
  cases rest with
  | nil => rfl
  | cons next rest =>
    rw [octal, if_neg (by simp)]
    rfl

theorem strip_escaped (f : UInt8) {rest : List UInt8} (more : rest ≠ []) :
    strip (escaped f ++ rest) = (strip rest).map (f :: ·) := by
  unfold escaped
  split
  · split
    · next quoted =>
        have same : unescape f rest = (f, rest) := by
          rcases quoted with rfl | rfl <;> rfl
        show strip (0x5c :: f :: rest) = _
        rw [strip_escape, same]
    · next printed unquoted =>
        have char : f ≠ 0 := by
          rintro rfl
          exact absurd printed (by decide)
        exact strip_plain char (fun quoted => unquoted (.inl quoted)) more
  · obtain ⟨⟨first, second, third⟩, value⟩ := escaped_digits f
    show strip (0x5c :: _ :: _ :: _ :: rest) = _
    rw [strip_escape, unescape_octal first, octal_three second third, value]

theorem bts2str_ne_nil (b : List UInt8) : bts2str b ≠ [] := by
  cases b with
  | nil => exact nofun
  | cons f b =>
    unfold bts2str escaped
    repeat' split
    all_goals exact nofun

theorem bts2str_eq (b : List UInt8) : bts2str b = b.flatMap escaped ++ [0] := by
  induction b with
  | nil => rfl
  | cons f b ih => rw [bts2str, ih, List.flatMap_cons, List.append_assoc]

theorem strip_bts2str (b : List UInt8) : strip (bts2str b) = some (b ++ [0]) := by
  induction b with
  | nil => exact strip_nul
  | cons f b ih =>
    rw [bts2str, strip_escaped f (bts2str_ne_nil b), ih]
    rfl

theorem str2bts_bts2str (b : List UInt8) :
    str2bts (bts2str b) = some (b ++ [0], b.length + 1) := by
  rw [str2bts, strip_bts2str, Option.map_some, List.length_append]
  rfl

end AckFormal.AckString
