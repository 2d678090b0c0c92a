import AckFormal.EmCode.Scon
import AckFormal.ReadEm.Strings

/-!
# String constants in readable EM

The text that `C_pt_scon` writes is read back by `getstring`.  Every byte comes
back as it was, whatever its escape; what limits the round trip are the two
arrays: the writer's has 1024 bytes, and the reader has no room for its nul when
the string fills the array to the last byte.
-/

namespace AckFormal.Pipeline.SconText

open Lib AckString EmCode ReadEm

/-! ## Bytes -/

theorem quoteMarks_append (first second : List UInt8) :
    quoteMarks (first ++ second) = quoteMarks first ++ quoteMarks second := by
  simp [quoteMarks]

/-- The digits of a numeric escape are octal and give the byte back. -/
theorem octal_facts (f : UInt8) :
    let high := ((f >>> 6) &&& 3) + 0x30
    let middle := ((f >>> 3) &&& 7) + 0x30
    let low := (f &&& 7) + 0x30
    (0x30 ≤ high ∧ high ≤ 0x37) ∧ ¬(middle < 0x30 ∨ 0x37 < middle) ∧
      ¬(low < 0x30 ∨ 0x37 < low) ∧ quoteMarks [0x5c, high, middle, low] = [0x5c, high, middle, low] ∧
      ((high - 0x30) <<< 3 + (middle - 0x30)) <<< 3 + (low - 0x30) = f := by
  have facts : ∀ n : Fin 256,
      let f := UInt8.ofNat n
      let high := ((f >>> 6) &&& 3) + 0x30
      let middle := ((f >>> 3) &&& 7) + 0x30
      let low := (f &&& 7) + 0x30
      (0x30 ≤ high ∧ high ≤ 0x37) ∧ ¬(middle < 0x30 ∨ 0x37 < middle) ∧
        ¬(low < 0x30 ∨ 0x37 < low) ∧
        quoteMarks [0x5c, high, middle, low] = [0x5c, high, middle, low] ∧
        ((high - 0x30) <<< 3 + (middle - 0x30)) <<< 3 + (low - 0x30) = f := by decide +kernel
  have known := facts ⟨f.toNat, f.toNat_lt⟩
  simpa only [UInt8.ofNat_toNat] using known

theorem getescape_octal (f : UInt8) (after : List UInt8) :
    getescape ([((f >>> 6) &&& 3) + 0x30, ((f >>> 3) &&& 7) + 0x30, (f &&& 7) + 0x30] ++ after) =
      (f, after) := by
  obtain ⟨high, middle, low, -, value⟩ := octal_facts f
  simp only [List.cons_append, List.nil_append, getescape, if_pos high, moreDigits,
    if_neg middle, if_neg low, value]

theorem is_print_line {f : UInt8} (print : is_print f = true) : f ≠ 0x0a := by
  intro line
  rw [line] at print
  exact absurd print (by decide)

/-- Whatever one byte is written as, the reader stores that byte. -/
theorem scan_escaped (s : Area UInt8) (f : UInt8) (after : List UInt8) :
    scan 0x27 s (quoteMarks (escaped f) ++ after) = scan 0x27 (put s f) after := by
  have escape (s : Area UInt8) (rest : List UInt8) : scan 0x27 s (0x5c :: rest) =
      scan 0x27 (put s (getescape rest).1) (getescape rest).2 := scan_escape (by decide) s rest
  unfold escaped
  split
  · rename_i print
    split
    · rename_i special
      rcases special with rfl | rfl
      · exact escape s (0x5c :: after)
      · exact escape s (0x22 :: after)
    · rename_i special
      rw [not_or] at special
      by_cases quote : f = 0x27
      · subst quote
        exact escape s (0x27 :: after)
      · have plain : quoteMarks [f] = [f] := by simp [quoteMarks, quote]
        rw [plain]
        exact scan_plain (is_print_line print) quote special.1 s after
  · rw [(octal_facts f).2.2.2.1, List.cons_append, escape, getescape_octal]

theorem scan_data (s : Area UInt8) (data after : List UInt8) :
    scan 0x27 s (quoteMarks (data.flatMap escaped) ++ after) =
      scan 0x27 (data.foldl put s) after := by
  induction data generalizing s with
  | nil => rfl
  | cons f rest ih =>
    rw [List.flatMap_cons, quoteMarks_append, List.append_assoc, scan_escaped]
    exact ih (put s f)

/-! ## The array of the reader -/

/-- The array after some characters have been stored in one of `size` bytes. -/
structure Grown (size : Nat) (s : Area UInt8) : Prop where
  pieces : 256 ∣ s.size
  larger : size ≤ s.size
  needed : s.size = size ∨ s.size < s.text.length + 256

namespace Grown

theorem empty (string : StringArea) : Grown string.size (Area.empty string.size) := by
  refine ⟨?_, Nat.le_refl _, Or.inl rfl⟩
  have pieces := string.pieces
  simp only [StringArea.size]
  split
  · exact Nat.dvd_refl _
  · exact pieces

variable {size : Nat} {s : Area UInt8} (grown : Grown size s)
include grown

theorem put (c : UInt8) :
    Grown size (put s c) := by
  have pieces := grown.pieces
  have larger := grown.larger
  have needed := grown.needed
  have text : (ReadEm.put s c).text.length = s.text.length + 1 := by simp [ReadEm.put]
  have grew := put_size s c
  split at grew
  · exact ⟨by omega, by omega, by omega⟩
  · exact ⟨by omega, by omega, by omega⟩

theorem puts (data : List UInt8) :
    Grown size (data.foldl ReadEm.put s) := by
  induction data generalizing s with
  | nil => exact grown
  | cons c rest ih => exact ih (grown.put c)

theorem full_iff :
    s.text.length = s.size ↔ size ≤ s.text.length ∧ 256 ∣ s.text.length := by
  have pieces := grown.pieces
  have larger := grown.larger
  have needed := grown.needed
  have fits := s.fits
  constructor
  · intro full
    exact ⟨by omega, full ▸ pieces⟩
  · rintro ⟨reached, even⟩
    omega

end Grown

theorem puts_text (s : Area UInt8) (data : List UInt8) :
    (data.foldl put s).text = s.text ++ data := by
  induction data generalizing s with
  | nil => simp
  | cons c rest ih =>
    rw [List.foldl_cons, ih]
    simp [ReadEm.put]

theorem puts_empty (size : Nat) (data : List UInt8) :
    (data.foldl put (Area.empty size)).text = data :=
  puts_text (Area.empty size) data

theorem terminate_iff (s got : Area UInt8) (rest : List UInt8) :
    terminate s rest false = some ⟨got, rest, false⟩ ↔ s.text.length < s.size ∧ s = got := by
  cases stored : s.store 0 with
  | none =>
    have full := mt Area.store_isSome.mpr (by simp [stored] : ¬(s.store 0).isSome = true)
    simp [terminate, stored, full]
  | some b =>
    have room := Area.store_isSome.mp (by simp [stored] : (s.store 0).isSome = true)
    simp [terminate, stored, room]

/-! ## The round trip -/

/-- The text written for `data` is read as `data`, neither side leaves its array,
and the reader is behind the text. -/
def ReadBack (string : StringArea) (data rest : List UInt8) : Prop :=
  ∃ text got, ptScon data data.length = some text ∧
    getstring string (text ++ rest) = some ⟨got, rest, false⟩ ∧ got.text = data

/-- What is read from a text that has been written for the first bytes of the data. -/
theorem getstring_written (string : StringArea) (data rest : List UInt8) (got : Area UInt8) :
    getstring string (0x27 :: (quoteMarks (data.flatMap escaped) ++ [0x27]) ++ rest) =
        some ⟨got, rest, false⟩ ↔
      ¬(string.size ≤ data.length ∧ 256 ∣ data.length) ∧
        data.foldl put (Area.empty string.size) = got := by
  have text := puts_empty string.size data
  have full := ((Grown.empty string).puts data).full_iff
  have fits := (data.foldl put (Area.empty string.size)).fits
  rw [text] at full fits
  rw [List.cons_append, List.append_assoc, getstring, scan_data, List.singleton_append,
    scan_single, terminate_iff, text, ← full]
  constructor
  · rintro ⟨room, same⟩
    exact ⟨Nat.ne_of_lt room, same⟩
  · rintro ⟨notFull, same⟩
    exact ⟨Nat.lt_of_le_of_ne fits notFull, same⟩

theorem take_toInt {data : List UInt8} (short : spelledLength data < 1024) :
    data.take (toInt data.length).toNat = data := by
  have length := length_le_spelledLength data
  have cast : toInt data.length = data.length :=
    Int.bmod_eq_of_le (by omega) (by omega)
  rw [cast, Int.toNat_natCast, List.take_length]

/-- A string constant comes back from readable EM exactly when its text with the
escapes is shorter than the writer's array and it does not fill the reader's array. -/
theorem scon_read_back_iff (string : StringArea) (data rest : List UInt8) :
    ReadBack string data rest ↔
      spelledLength data < 1024 ∧ ¬(string.size ≤ data.length ∧ 256 ∣ data.length) := by
  constructor
  · rintro ⟨text, got, wrote, read, same⟩
    obtain ⟨short, rfl⟩ := (ptScon_some _ _ _).mp wrote
    obtain ⟨room, held⟩ := (getstring_written _ _ _ _).mp read
    have whole := puts_empty string.size (data.take (toInt data.length).toNat)
    rw [held, same] at whole
    rw [← whole] at short room
    exact ⟨short, room⟩
  · rintro ⟨short, room⟩
    have whole := take_toInt short
    refine ⟨_, _, (ptScon_some _ _ _).mpr ⟨by rwa [whole], rfl⟩, ?_,
      puts_empty string.size data⟩
    rw [whole]
    exact (getstring_written _ _ _ _).mpr ⟨room, rfl⟩

/-- 256 nul bytes take 1024 characters, and the nul behind them is stored outside
the writer's array. -/
theorem scon_nuls_overflow :
    ¬ReadBack ⟨0, Nat.dvd_zero 256⟩ (List.replicate 256 0) [0x0a] := by
  rintro ⟨text, got, wrote, -, -⟩
  obtain ⟨short, -⟩ := (ptScon_some _ _ _).mp wrote
  exact absurd short (by decide +kernel)

end AckFormal.Pipeline.SconText
