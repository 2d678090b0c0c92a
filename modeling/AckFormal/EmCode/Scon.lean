import AckFormal.AckString.Bytes
import AckFormal.Lib.Area
import Mathlib.Algebra.Ring.Nat
import Mathlib.Data.List.TakeWhile

/-!
# Writing string constants as readable EM

The function `C_pt_scon` of `em.c`, which calls `bts2str` with an array of 1024
bytes on its stack.  A store behind the end of that array has no result here.
-/

namespace AckFormal.EmCode

open Lib AckString

def toInt (y : Int) : Int := y.bmod (2 ^ 32)

/-- The loop of `C_pt_scon` that puts a backslash before every single quote. -/
def quoteMarks (text : List UInt8) : List UInt8 :=
  text.flatMap fun c => if c = 0x27 then [0x5c, c] else [c]

def ptScon (x : List UInt8) (y : Int) : Option (List UInt8) := do
  let xbuf ← (Area.empty 1024).storeAll (bts2str (x.take (toInt y).toNat))
  some (0x27 :: (quoteMarks (xbuf.text.takeWhile (· ≠ 0)) ++ [0x27]))

/-! ## The text of a byte -/

def spelledLength (data : List UInt8) : Nat := (data.map fun f => (escaped f).length).sum

theorem escaped_facts (f : UInt8) :
    0 ∉ escaped f ∧ 0x0a ∉ escaped f ∧ 0 < (escaped f).length := by
  have facts : ∀ n : Fin 256, 0 ∉ escaped (UInt8.ofNat n) ∧ 0x0a ∉ escaped (UInt8.ofNat n) ∧
      0 < (escaped (UInt8.ofNat n)).length := by decide +kernel
  have known := facts ⟨f.toNat, f.toNat_lt⟩
  simpa only [UInt8.ofNat_toNat] using known

theorem length_le_spelledLength (data : List UInt8) : data.length ≤ spelledLength data := by
  induction data with
  | nil => exact Nat.le_refl _
  | cons f rest ih =>
    have pos := (escaped_facts f).2.2
    simp only [spelledLength, List.map_cons, List.sum_cons, List.length_cons] at ih ⊢
    omega

theorem takeWhile_escaped (data : List UInt8) :
    (data.flatMap escaped ++ [0]).takeWhile (· ≠ 0) = data.flatMap escaped := by
  have noNul : ∀ c ∈ data.flatMap escaped, decide (c ≠ 0) = true := by
    intro c member
    obtain ⟨f, -, escapedC⟩ := List.mem_flatMap.mp member
    have notZero : c ≠ 0 := fun same => (escaped_facts f).1 (same ▸ escapedC)
    simpa using notZero
  rw [List.takeWhile_append_of_pos noNul]
  simp

/-- The array is large enough exactly when there is room for a nul behind the text. -/
theorem ptScon_some (x : List UInt8) (y : Int) (text : List UInt8) :
    ptScon x y = some text ↔ spelledLength (x.take (toInt y).toNat) < 1024 ∧
      text = 0x27 :: (quoteMarks ((x.take (toInt y).toNat).flatMap escaped) ++ [0x27]) := by
  have size : ((x.take (toInt y).toNat).flatMap escaped).length =
      spelledLength (x.take (toInt y).toNat) := by simp [spelledLength]
  unfold ptScon
  rw [bts2str_eq]
  cases stored : (Area.empty 1024).storeAll ((x.take (toInt y).toNat).flatMap escaped ++ [0]) with
  | none =>
    have full := mt Area.storeAll_isSome.mpr (by simp [stored] : ¬((Area.empty 1024).storeAll
      ((x.take (toInt y).toNat).flatMap escaped ++ [0])).isSome = true)
    simp only [Area.empty, List.length_append, List.length_singleton, List.length_nil] at full
    simp only [Option.bind_eq_bind, Option.bind_none, reduceCtorEq, false_iff]
    omega
  | some xbuf =>
    have room := Area.storeAll_isSome.mp (by simp [stored] : ((Area.empty 1024).storeAll
      ((x.take (toInt y).toNat).flatMap escaped ++ [0])).isSome = true)
    obtain ⟨-, held⟩ := Area.storeAll_some stored
    simp only [Area.empty, List.length_append, List.length_singleton] at room
    simp only [Area.empty, List.nil_append] at held
    simp only [Option.bind_eq_bind, Option.bind_some, held, takeWhile_escaped, Option.some.injEq]
    constructor
    · exact fun same => ⟨by omega, same.symm⟩
    · exact fun same => same.2.symm

end AckFormal.EmCode
