import AckFormal.Led.Packings

/-!
# The forms of relocation fields

A field is a place in memory and a number coded there.  Which form a field has
is told by the type of the relocation and by bits that no relocation changes.
-/

namespace AckFormal.Led

open Lib.Fields

/-! ## Places -/

section Places

variable (type : BitVec 16)

theorem put2_read (addr : Core) : put2 (addr 0) (addr 1) addr = addr := by
  unfold put2
  rw [Function.update_eq_self, Function.update_eq_self]

theorem put2_put2 (a b c d : Byte) (addr : Core) :
    put2 c d (put2 a b addr) = put2 c d addr := by
  funext i
  simp only [put2, Function.update_apply]
  by_cases second : i = 1
  · simp only [second, if_true]
  · by_cases first : i = 0
    · simp only [first, if_true]
    · simp only [second, first, if_false]

theorem highByte_word (high low : Byte) : highByte (word high low) = high := by
  apply BitVec.eq_of_toNat_eq
  simp only [highByte, BitVec.truncate_eq_setWidth, BitVec.toNat_setWidth,
    BitVec.toNat_ushiftRight, Nat.shiftRight_eq_div_pow, word_toNat]
  omega

theorem lowByte_word (high low : Byte) : lowByte (word high low) = low := by
  apply BitVec.eq_of_toNat_eq
  simp only [lowByte, BitVec.toNat_setWidth, word_toNat]
  omega

theorem high_long (high low : BitVec 16) : ((long high low) >>> 16).truncate 16 = high := by
  apply BitVec.eq_of_toNat_eq
  simp only [BitVec.truncate_eq_setWidth, BitVec.toNat_setWidth,
    BitVec.toNat_ushiftRight, Nat.shiftRight_eq_div_pow, long_toNat]
  omega

theorem low_long (high low : BitVec 16) : (long high low).truncate 16 = low := by
  apply BitVec.eq_of_toNat_eq
  simp only [BitVec.toNat_setWidth, long_toNat]
  omega

def bytePlace : Place Core Byte where
  read addr := addr 0
  write b addr := Function.update addr 0 b
  read_write _ _ := Function.update_self ..
  write_read _ := Function.update_eq_self ..
  write_write _ _ _ := Function.update_idem ..

def halfPlace : Place Core (BitVec 16) where
  read addr := read2 addr type
  write valu addr := write2 valu addr type
  read_write valu addr := read2_write2 valu
  write_read addr := by
    unfold write2 read2
    split
    · rw [highByte_word, lowByte_word, put2_read]
    · rw [highByte_word, lowByte_word, put2_read]
  write_write b c addr := by
    unfold write2
    split
    · rw [put2_put2]
    · rw [put2_put2]

theorem window_graft (addr tail : Core) (n : Nat) : window (graft addr n tail) n = tail := by
  funext i
  simp only [window, graft]
  rw [if_neg (by omega), Nat.add_sub_cancel_left]

theorem graft_window (addr : Core) (n : Nat) : graft addr n (window addr n) = addr := by
  funext i
  simp only [window, graft]
  split
  · rfl
  · rw [Nat.add_sub_of_le (by omega)]

theorem graft_again (addr tail tail' : Core) (n : Nat) :
    graft (graft addr n tail) n tail' = graft addr n tail' := by
  funext i
  simp only [graft]
  split
  · rfl
  · rfl

def behind {β : Type} (n : Nat) (p : Place Core β) : Place Core β where
  read addr := p.read (window addr n)
  write b addr := graft addr n (p.write b (window addr n))
  read_write b addr := by rw [window_graft, p.read_write]
  write_read addr := by rw [p.write_read, graft_window]
  write_write b c addr := by rw [window_graft, graft_again, p.write_write]

theorem write2_graft (valu : BitVec 16) (addr tail : Core) {n : Nat} (apart : 2 ≤ n) :
    write2 valu (graft addr n tail) type = graft (write2 valu addr type) n tail := by
  funext i
  by_cases head : i < 2
  · have inside : i < n := by omega
    unfold write2 put2
    split
    · simp only [Function.update_apply, graft, inside, if_true]
    · simp only [Function.update_apply, graft, inside, if_true]
  · rw [write2_of_le (by omega)]
    simp only [graft]
    rw [write2_of_le (by omega)]

theorem write4_graft (valu : BitVec 32) (addr tail : Core) {n : Nat} (apart : 4 ≤ n) :
    write4 valu (graft addr n tail) type = graft (write4 valu addr type) n tail := by
  funext i
  by_cases head : i < 4
  · have same : Agree 4 (graft addr n tail) addr := by
      intro j bound
      simp only [graft]
      rw [if_pos (by omega)]
    rw [same.write4 valu type i head]
    simp only [graft]
    rw [if_pos (by omega)]
  · rw [write4_of_le (by omega)]
    simp only [graft]
    rw [write4_of_le (by omega)]

theorem read4_graft (addr tail : Core) {n : Nat} (apart : 4 ≤ n) :
    read4 (graft addr n tail) type = read4 addr type := by
  have same : Agree 4 (graft addr n tail) addr := by
    intro j bound
    simp only [graft]
    rw [if_pos (by omega)]
  exact same.read4_eq type

theorem read2_graft (addr tail : Core) {n : Nat} (apart : 2 ≤ n) :
    read2 (graft addr n tail) type = read2 addr type := by
  have same : Agree 2 (graft addr n tail) addr := by
    intro j bound
    simp only [graft]
    rw [if_pos (by omega)]
  exact same.read2_eq type

theorem read4_eq_long (addr : Core) :
    read4 addr type = if relwr type then long (read2 addr type) (read2 (window addr 2) type)
      else long (read2 (window addr 2) type) (read2 addr type) :=
  rfl

def wordPlace : Place Core (BitVec 32) where
  read addr := read4 addr type
  write valu addr := write4 valu addr type
  read_write _ _ := read4_write4
  write_read addr := by
    have first := (halfPlace type).write_read addr
    have second := (halfPlace type).write_read (window addr 2)
    unfold write4
    rw [read4_eq_long]
    by_cases order : relwr type
    · simp only [if_pos order, high_long, low_long]
      exact (congrArg₂ (graft · 2) first second).trans (graft_window addr 2)
    · simp only [if_neg order, high_long, low_long]
      exact (congrArg₂ (graft · 2) first second).trans (graft_window addr 2)
  write_write b c addr := by
    have again (x y : BitVec 16) (core : Core) :
        write2 y (write2 x core type) type = write2 y core type :=
      (halfPlace type).write_write x y core
    show write4 c (write4 b addr type) type = write4 c addr type
    unfold write4
    dsimp only
    rw [window_graft, write2_graft type _ _ _ (Nat.le_refl 2), graft_again, again, again]

def pairPlace : Place Core (BitVec 32 × BitVec 32) where
  read addr := (read4 addr type, read4 (window addr 4) type)
  write valu addr := graft (write4 valu.1 addr type) 4 (write4 valu.2 (window addr 4) type)
  read_write valu addr := by
    rw [read4_graft type _ _ (Nat.le_refl 4), window_graft, read4_write4, read4_write4]
  write_read addr := by
    have first := (wordPlace type).write_read addr
    have second := (wordPlace type).write_read (window addr 4)
    exact (congrArg₂ (graft · 4) first second).trans (graft_window addr 4)
  write_write b c addr := by
    have again (x y : BitVec 32) (core : Core) :
        write4 y (write4 x core type) type = write4 y core type :=
      (wordPlace type).write_write x y core
    rw [window_graft, write4_graft type _ _ _ (Nat.le_refl 4), graft_again, again, again]

end Places

end AckFormal.Led
