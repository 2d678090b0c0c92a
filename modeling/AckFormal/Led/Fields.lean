import Mathlib.Data.BitVec
import Mathlib.Tactic

/-!
# Relocation fields

What `relocate.c` of led reads from and writes to the bytes of a section.  A
`char *` is the contents of memory from that address on; a routine that writes
through it returns the new contents.  A call of `fatal`, or of `assert` with a
false argument, gives no result.
-/

namespace AckFormal.Led

abbrev Byte := BitVec 8

abbrev Core := Nat → Byte

def window (addr : Core) (n : Nat) : Core :=
  fun i => addr (n + i)

/-- Memory at `addr` after the routine that got `addr + n` left `tail` there. -/
def graft (addr : Core) (n : Nat) (tail : Core) : Core :=
  fun i => if i < n then addr i else tail (i - n)

/-- `RELPC`, `RELBR` and `RELWR`: the flags in the type of a relocation. -/
def relpc (type : BitVec 16) : Bool := type &&& 0x2000#16 != 0#16
def relbr (type : BitVec 16) : Bool := type &&& 0x4000#16 != 0#16
def relwr (type : BitVec 16) : Bool := type &&& 0x8000#16 != 0#16

inductive Relsz where
  | relo1 | relo2 | relo4 | reloppc | reloppcLis | relovc4 | relomips
  | relo2hi | relo2hisad
deriving DecidableEq

def relsz (type : BitVec 16) : Option Relsz :=
  match (type &&& 0x0fff#16).toNat with
  | 1 => some .relo1
  | 2 => some .relo2
  | 3 => some .relo4
  | 4 => some .reloppc
  | 5 => some .reloppcLis
  | 6 => some .relovc4
  | 7 => some .relomips
  | 8 => some .relo2hi
  | 9 => some .relo2hisad
  | _ => none

/-! ## Reading -/

def word (high low : Byte) : BitVec 16 :=
  (high.zeroExtend 16 <<< 8) + low.zeroExtend 16

def long (high low : BitVec 16) : BitVec 32 :=
  (high.zeroExtend 32 <<< 16) + low.zeroExtend 32

def read2 (addr : Core) (type : BitVec 16) : BitVec 16 :=
  if relbr type then word (addr 0) (addr 1) else word (addr 1) (addr 0)

def read4 (addr : Core) (type : BitVec 16) : BitVec 32 :=
  let word0 := if relbr type then word (addr 0) (addr 1) else word (addr 1) (addr 0)
  let word1 := if relbr type then word (addr 2) (addr 3) else word (addr 3) (addr 2)
  if relwr type then long word0 word1 else long word1 word0

def getVc4Valu (addr : Core) : Option (BitVec 32) :=
  let opcode := read2 addr 0
  if opcode &&& 0xff00#16 = 0xe700#16 then
    let value := read4 (window addr 2) 0 &&& 0x07ffffff#32
    some ((value <<< 5).sshiftRight 5)
  else if opcode &&& 0xf080#16 = 0x9000#16 then
    let value := read4 addr 0x8000#16 &&& 0x007fffff#32
    some (value <<< 9 >>> 9 * 2#32)
  else if opcode &&& 0xf080#16 = 0x9080#16 then
    let value := read4 addr 0x8000#16
    let lov := value &&& 0x007fffff#32
    let hiv := value &&& 0x0f000000#32
    let value := lov ||| hiv.sshiftRight 1
    some ((value <<< 5).sshiftRight 5 * 2#32)
  else if opcode &&& 0xffe0#16 = 0xe500#16 then
    some (read4 (window addr 2) 0)
  else none

def isPowerpcMemoryOp (opcode : BitVec 32) : Bool :=
  ((opcode &&& 0xfc000000#32) >>> 26).toNat ∈
    [14, 34, 48, 50, 42, 40, 32, 38, 52, 54, 44, 36]

def isPowerpcBranch (opcode : BitVec 32) : Bool :=
  opcode &&& 0xfc000000#32 == 0x48000000#32

def isPowerpcAddis (opcode : BitVec 32) : Bool :=
  opcode &&& 0xfc1f0000#32 == 0x3c000000#32

def isPowerpcOri (opcode : BitVec 32) : Bool :=
  opcode &&& 0xfc000000#32 == 0x60000000#32

def getPowerpcValu (addr : Core) (type : BitVec 16) : Option (BitVec 32) :=
  let opcode1 := read4 addr type
  let opcode2 := read4 (window addr 4) type
  if isPowerpcBranch opcode1 then
    some (opcode1 &&& 0x03fffffd#32)
  else if isPowerpcAddis opcode1 && isPowerpcOri opcode2 then
    some (((opcode1 &&& 0xffff#32) <<< 16) ||| (opcode2 &&& 0xffff#32))
  else if isPowerpcAddis opcode1 && isPowerpcMemoryOp opcode2 then
    let hi := opcode1.truncate 16
    let lo := opcode2.truncate 16
    -- the sign adjustment of the assembler is undone
    let hi := if lo > 0x7fff#16 then hi - 1#16 else hi
    some ((hi.zeroExtend 32 <<< 16) ||| lo.zeroExtend 32)
  else none

def getLisValu (addr : Core) (type : BitVec 16) : BitVec 32 :=
  let valu := read4 addr type &&& 0x03ffffff#32
  if valu &&& 0x02000000#32 ≠ 0#32 then valu ||| 0xfc000000#32 else valu

/-- `j`, `jal` and `jalx`, which have an address of 26 bits. -/
def isMipsJump (opcode : BitVec 32) : Bool :=
  (opcode >>> 26).toNat ∈ [2, 3, 29]

def getMipsValu (addr : Core) : BitVec 32 :=
  let value := read4 addr 0
  let value :=
    if isMipsJump value then value &&& 0x03ffffff#32
    else (value <<< 16).sshiftRight 16
  value <<< 2

def getvalu (addr : Core) (type : BitVec 16) : Option (BitVec 32) :=
  match relsz type with
  | some .relo1 => some ((addr 0).zeroExtend 32)
  | some .relo2 | some .relo2hi | some .relo2hisad =>
    some ((read2 addr type).zeroExtend 32)
  | some .relo4 => some (read4 addr type)
  | some .reloppc => getPowerpcValu addr type
  | some .reloppcLis => some (getLisValu addr type)
  | some .relovc4 => getVc4Valu addr
  | some .relomips => some (getMipsValu addr)
  | none => none

/-! ## Writing -/

def highByte (valu : BitVec 16) : Byte := (valu >>> 8).truncate 8
def lowByte (valu : BitVec 16) : Byte := valu.truncate 8

def put2 (first second : Byte) (addr : Core) : Core :=
  Function.update (Function.update addr 0 first) 1 second

def write2 (valu : BitVec 16) (addr : Core) (type : BitVec 16) : Core :=
  if relbr type then put2 (highByte valu) (lowByte valu) addr
  else put2 (lowByte valu) (highByte valu) addr

def write4 (valu : BitVec 32) (addr : Core) (type : BitVec 16) : Core :=
  let word0 : BitVec 16 :=
    if relwr type then (valu >>> 16).truncate 16 else valu.truncate 16
  let word1 : BitVec 16 :=
    if relwr type then valu.truncate 16 else (valu >>> 16).truncate 16
  graft (write2 word0 addr type) 2 (write2 word1 (window addr 2) type)

def putVc4Valu (addr : Core) (value : BitVec 32) : Option Core :=
  let opcode := read2 addr 0
  if opcode &&& 0xff00#16 = 0xe700#16 then
    let v := read4 (window addr 2) 0 &&& 0xf8000000#32
    some (graft addr 2 (write4 (v ||| (value &&& 0x07ffffff#32)) (window addr 2) 0))
  else if opcode &&& 0xf080#16 = 0x9000#16 then
    let v := read4 addr 0x8000#16 &&& 0xff800000#32
    some (write4 (v ||| (value / 2#32 &&& 0x007fffff#32)) addr 0x8000#16)
  else if opcode &&& 0xf080#16 = 0x9080#16 then
    let v := read4 addr 0x8000#16
    let lovalue := value / 2#32 &&& 0x007fffff#32
    let hivalue := value / 2#32 &&& 0x07800000#32
    let v := v &&& 0xf0800000#32
    some (write4 (v ||| (lovalue ||| hivalue <<< 1)) addr 0x8000#16)
  else if opcode &&& 0xffe0#16 = 0xe500#16 then
    some (graft addr 2 (write4 value (window addr 2) 0))
  else none

/-- The two halves of an instruction pair, each in the low half of its word. -/
def putPowerpcPair (addr : Core) (hi lo : BitVec 16) (type : BitVec 16) : Core :=
  let opcode1 := read4 addr type &&& 0xffff0000#32
  let opcode2 := read4 (window addr 4) type &&& 0xffff0000#32
  graft (write4 (opcode1 ||| hi.zeroExtend 32) addr type) 4
    (write4 (opcode2 ||| lo.zeroExtend 32) (window addr 4) type)

def putPowerpcValu (addr : Core) (value : BitVec 32) (type : BitVec 16) : Option Core :=
  let opcode1 := read4 addr type
  let opcode2 := read4 (window addr 4) type
  let hi : BitVec 16 := (value >>> 16).truncate 16
  let lo : BitVec 16 := value.truncate 16
  if isPowerpcBranch opcode1 then
    let i := opcode1 &&& ~~~0x03fffffd#32
    some (write4 (i ||| (value &&& 0x03fffffd#32)) addr type)
  else if isPowerpcAddis opcode1 && isPowerpcOri opcode2 then
    some (putPowerpcPair addr hi lo type)
  else if isPowerpcAddis opcode1 && isPowerpcMemoryOp opcode2 then
    let hi := if lo > 0x7fff#16 then hi + 1#16 else hi
    some (putPowerpcPair addr hi lo type)
  else none

def putLisValu (addr : Core) (value : BitVec 32) (type : BitVec 16) : Core :=
  let opcode := read4 addr type
  let ha16 := opcode >>> 31 ≠ 0#32
  let reg := (opcode >>> 26) &&& 0x1f#32
  let hi : BitVec 16 := (value >>> 16).truncate 16
  let lo : BitVec 16 := value.truncate 16
  let hi := if ha16 ∧ lo > 0x7fff#16 then hi + 1#16 else hi
  let opcode := (15#32 <<< 26) ||| (reg <<< 21) ||| (0#32 <<< 16) ||| hi.zeroExtend 32
  write4 opcode addr type

def putMipsValu (addr : Core) (value : BitVec 32) : Option Core :=
  let opcode := read4 addr 0
  if value &&& 3#32 ≠ 0#32 then none
  else
    let value := value >>> 2
    let mask := if isMipsJump opcode then 0x03ffffff#32 else 0xffff#32
    some (write4 ((opcode &&& ~~~mask) ||| (value &&& mask)) addr 0)

def putvalu (valu : BitVec 32) (addr : Core) (type : BitVec 16) : Option Core :=
  match relsz type with
  | some .relo1 => some (Function.update addr 0 (valu.truncate 8))
  | some .relo2 => some (write2 (valu.truncate 16) addr type)
  | some .relo2hi => some (write2 ((valu >>> 16).truncate 16) addr type)
  | some .relo2hisad =>
    let carry := if valu &&& 0x8000#32 ≠ 0#32 then 1#32 else 0#32
    some (write2 (((valu >>> 16) + carry).truncate 16) addr type)
  | some .relo4 => some (write4 valu addr type)
  | some .reloppc => putPowerpcValu addr valu type
  | some .reloppcLis => some (putLisValu addr valu type)
  | some .relovc4 => putVc4Valu addr valu
  | some .relomips => putMipsValu addr valu
  | none => none

/-! ## The bytes of a field -/

/-- A branch is one instruction, everything else a pair. -/
def powerpcExtent (addr : Core) (type : BitVec 16) : Nat :=
  if isPowerpcBranch (read4 addr type) then 4 else 8

def vc4Extent (addr : Core) : Nat :=
  let opcode := read2 addr 0
  if opcode &&& 0xff00#16 = 0xe700#16 then 6
  else if opcode &&& 0xf080#16 = 0x9000#16 then 4
  else if opcode &&& 0xf080#16 = 0x9080#16 then 4
  else 6

/-- The number of bytes that a relocation of this type can change. -/
def extent (addr : Core) (type : BitVec 16) : Nat :=
  match relsz type with
  | some .relo1 => 1
  | some .relo2 | some .relo2hi | some .relo2hisad => 2
  | some .relo4 | some .reloppcLis | some .relomips => 4
  | some .reloppc => powerpcExtent addr type
  | some .relovc4 => vc4Extent addr
  | none => 0

def Agree (n : Nat) (addr addr' : Core) : Prop :=
  ∀ i, i < n → addr i = addr' i

namespace Agree

variable {n : Nat} {addr addr' tail tail' : Core}

theorem refl (n : Nat) (addr : Core) : Agree n addr addr :=
  fun _ _ => rfl

theorem symm (same : Agree n addr addr') : Agree n addr' addr :=
  fun i bound => (same i bound).symm

variable {k : Nat}

theorem mono (same : Agree n addr addr') (short : k ≤ n) : Agree k addr addr' :=
  fun i bound => same i (Nat.lt_of_lt_of_le bound short)

theorem window (same : Agree (k + n) addr addr') : Agree n (window addr k) (window addr' k) := by
  intro i bound
  exact same (k + i) (by omega)

theorem graft (same : Agree k addr addr') (sameTail : Agree n tail tail') :
    Agree (k + n) (graft addr k tail) (graft addr' k tail') := by
  intro i bound
  simp only [Led.graft]
  split
  · rename_i inHead
    exact same i inHead
  · exact sameTail (i - k) (by omega)

theorem update (same : Agree n addr addr') (position : Nat) (byte : Byte) :
    Agree n (Function.update addr position byte) (Function.update addr' position byte) := by
  intro i bound
  by_cases here : i = position
  · subst here
    simp only [Function.update_self]
  · simp only [Function.update_of_ne here]
    exact same i bound

theorem put2 (same : Agree n addr addr') (first second : Byte) :
    Agree n (put2 first second addr) (put2 first second addr') :=
  (same.update 0 first).update 1 second

theorem write2 (same : Agree n addr addr') (valu type : BitVec 16) :
    Agree n (write2 valu addr type) (write2 valu addr' type) := by
  simp only [Led.write2]
  split
  · exact same.put2 _ _
  · exact same.put2 _ _

theorem write4 (same : Agree 4 addr addr') (valu : BitVec 32) (type : BitVec 16) :
    Agree 4 (write4 valu addr type) (write4 valu addr' type) := by
  have head : Agree 2 addr addr' := same.mono (by omega)
  have tail : Agree 2 (Led.window addr 2) (Led.window addr' 2) := window same
  exact (head.write2 _ type).graft (tail.write2 _ type)

theorem read2_eq (same : Agree 2 addr addr') (type : BitVec 16) :
    read2 addr type = read2 addr' type := by
  simp only [read2, same 0 (by omega), same 1 (by omega)]

theorem read4_eq (same : Agree 4 addr addr') (type : BitVec 16) :
    read4 addr type = read4 addr' type := by
  simp only [read4, same 0 (by omega), same 1 (by omega), same 2 (by omega), same 3 (by omega)]

end Agree

section Locality

variable {addr addr' after : Core} {type : BitVec 16} {valu : BitVec 32}

variable {n i : Nat}

theorem graft_of_le {tail : Core} (past : n ≤ i) : graft addr n tail i = tail (i - n) := by
  simp only [graft, Nat.not_lt.mpr past, if_false]

theorem put2_of_le {first second : Byte} (past : 2 ≤ i) : put2 first second addr i = addr i := by
  simp only [put2]
  rw [Function.update_of_ne (by omega), Function.update_of_ne (by omega)]

theorem write2_of_le {word : BitVec 16} (past : 2 ≤ i) : write2 word addr type i = addr i := by
  simp only [write2]
  split
  · exact put2_of_le past
  · exact put2_of_le past

theorem write4_of_le (past : 4 ≤ i) : write4 valu addr type i = addr i := by
  simp only [write4]
  rw [graft_of_le (by omega), write2_of_le (by omega)]
  simp only [window]
  congr 1
  omega

/-- A write through `addr + n` leaves what is four bytes further alone. -/
theorem graft_write4_of_le {head : Core} (past : n + 4 ≤ i) :
    graft head n (write4 valu (window addr n) type) i = addr i := by
  rw [graft_of_le (by omega), write4_of_le (by omega)]
  simp only [window]
  congr 1
  omega

theorem putVc4Valu_frame (written : putVc4Valu addr valu = some after) (past : vc4Extent addr ≤ i) :
    after i = addr i := by
  simp only [vc4Extent] at past
  simp only [putVc4Valu] at written
  split at written
  · rename_i load
    simp only [load] at past
    cases written
    exact graft_write4_of_le past
  · rename_i noLoad
    simp only [noLoad] at past
    split at written
    · rename_i branch
      simp only [branch] at past
      cases written
      exact write4_of_le past
    · rename_i noBranch
      simp only [noBranch] at past
      split at written
      · rename_i link
        simp only [link] at past
        cases written
        exact write4_of_le past
      · rename_i noLink
        simp only [noLink] at past
        split at written
        · cases written
          exact graft_write4_of_le past
        · cases written

theorem putPowerpcPair_of_le {hi lo : BitVec 16} (past : 8 ≤ i) :
    putPowerpcPair addr hi lo type i = addr i :=
  graft_write4_of_le past

theorem putPowerpcValu_frame (written : putPowerpcValu addr valu type = some after)
    (past : powerpcExtent addr type ≤ i) : after i = addr i := by
  simp only [powerpcExtent] at past
  simp only [putPowerpcValu] at written
  split at written
  · rename_i branch
    simp only [branch] at past
    cases written
    exact write4_of_le past
  · rename_i noBranch
    simp only [noBranch] at past
    split at written
    · cases written
      exact putPowerpcPair_of_le past
    · split at written
      · cases written
        exact putPowerpcPair_of_le past
      · cases written

theorem putMipsValu_frame (written : putMipsValu addr valu = some after) (past : 4 ≤ i) :
    after i = addr i := by
  simp only [putMipsValu] at written
  split at written
  · cases written
  · cases written
    exact write4_of_le past

theorem putvalu_frame (written : putvalu valu addr type = some after) (past : extent addr type ≤ i) :
    after i = addr i := by
  unfold putvalu at written
  unfold extent at past
  cases size : relsz type with
  | none => simp only [size] at written; cases written
  | some kind =>
    simp only [size] at written past
    cases kind with
    | reloppc => exact putPowerpcValu_frame written past
    | relovc4 => exact putVc4Valu_frame written past
    | relomips => exact putMipsValu_frame written past
    | relo1 =>
      cases written
      change 1 ≤ i at past
      exact Function.update_of_ne (by omega) _ _
    | relo2 | relo2hi | relo2hisad =>
      cases written
      exact write2_of_le past
    | relo4 | reloppcLis =>
      cases written
      exact write4_of_le past

theorem extent_pos {old : BitVec 32} (read : getvalu addr type = some old) :
    0 < extent addr type := by
  unfold getvalu at read
  unfold extent
  cases size : relsz type with
  | none => simp only [size] at read; cases read
  | some kind =>
    cases kind with
    | reloppc => simp only [powerpcExtent]; split <;> omega
    | relovc4 =>
      simp only [vc4Extent]
      split
      · omega
      · split
        · omega
        · split <;> omega
    | _ => exact Nat.zero_lt_succ _

theorem powerpcExtent_ge : 4 ≤ powerpcExtent addr type := by
  simp only [powerpcExtent]
  split <;> omega

theorem vc4Extent_ge : 4 ≤ vc4Extent addr := by
  simp only [vc4Extent]
  split
  · omega
  · split
    · omega
    · split <;> omega

/-- How far a field extends is told by the bytes of the field. -/
theorem extent_eq (same : Agree (extent addr type) addr addr') :
    extent addr' type = extent addr type := by
  unfold extent at same ⊢
  cases size : relsz type with
  | none => rfl
  | some kind =>
    simp only [size] at same
    cases kind with
    | reloppc =>
      have opcode := (same.mono powerpcExtent_ge).read4_eq type
      simp only [powerpcExtent, opcode]
    | relovc4 =>
      have opcode := (same.mono (Nat.le_trans (by omega) vc4Extent_ge)).read2_eq 0
      simp only [vc4Extent, opcode]
    | _ => rfl

theorem getPowerpcValu_eq (same : Agree (powerpcExtent addr type) addr addr') :
    getPowerpcValu addr' type = getPowerpcValu addr type := by
  have opcode := (same.mono powerpcExtent_ge).read4_eq type
  simp only [getPowerpcValu, ← opcode]
  by_cases branch : isPowerpcBranch (read4 addr type)
  · simp only [branch, if_true]
  · simp only [powerpcExtent, branch] at same
    have second : read4 (window addr 4) type = read4 (window addr' 4) type :=
      (Agree.window same).read4_eq type
    simp only [← second]

theorem getVc4Valu_eq (same : Agree (vc4Extent addr) addr addr') :
    getVc4Valu addr' = getVc4Valu addr := by
  have opcode := (same.mono (Nat.le_trans (by omega) vc4Extent_ge)).read2_eq 0
  have whole := (same.mono vc4Extent_ge).read4_eq 0x8000#16
  simp only [getVc4Valu, ← opcode, ← whole]
  simp only [vc4Extent] at same
  split
  · rename_i load
    simp only [load] at same
    have tail : read4 (window addr 2) 0 = read4 (window addr' 2) 0 :=
      (Agree.window same).read4_eq 0
    rw [tail]
  · rename_i noLoad
    simp only [noLoad] at same
    split
    · rfl
    · rename_i noBranch
      simp only [noBranch] at same
      split
      · rfl
      · rename_i noLink
        simp only [noLink] at same
        have tail : read4 (window addr 2) 0 = read4 (window addr' 2) 0 :=
          (Agree.window same).read4_eq 0
        rw [tail]

/-- What a field holds is told by the bytes of the field. -/
theorem getvalu_eq (same : Agree (extent addr type) addr addr') :
    getvalu addr' type = getvalu addr type := by
  unfold extent at same
  unfold getvalu
  cases size : relsz type with
  | none => rfl
  | some kind =>
    simp only [size] at same
    cases kind with
    | relo1 =>
      change Agree 1 addr addr' at same
      simp only [same 0 (by omega)]
    | relo2 | relo2hi | relo2hisad => simp only [same.read2_eq type]
    | relo4 => simp only [same.read4_eq type]
    | reloppcLis => simp only [getLisValu, same.read4_eq type]
    | relomips => simp only [getMipsValu, same.read4_eq 0]
    | reloppc => exact getPowerpcValu_eq same
    | relovc4 => exact getVc4Valu_eq same

theorem putPowerpcPair_agree {hi lo : BitVec 16} (same : Agree 8 addr addr') :
    Agree 8 (putPowerpcPair addr hi lo type) (putPowerpcPair addr' hi lo type) := by
  have head : Agree 4 addr addr' := same.mono (by omega)
  have tail : Agree 4 (window addr 4) (window addr' 4) := Agree.window same
  simp only [putPowerpcPair, head.read4_eq type, tail.read4_eq type]
  exact (head.write4 _ type).graft (tail.write4 _ type)

/-- The write depends on the bytes of the field alone. -/
theorem putPowerpcValu_agree (same : Agree (powerpcExtent addr type) addr addr')
    (written : putPowerpcValu addr valu type = some after) :
    ∃ after', putPowerpcValu addr' valu type = some after' ∧
      Agree (powerpcExtent addr type) after after' := by
  have head := same.mono powerpcExtent_ge
  have opcode := head.read4_eq type
  simp only [putPowerpcValu] at written ⊢
  rw [← opcode]
  by_cases branch : isPowerpcBranch (read4 addr type)
  · rw [if_pos branch] at written ⊢
    cases written
    refine ⟨_, rfl, ?_⟩
    rw [powerpcExtent, if_pos branch]
    exact head.write4 _ type
  · rw [powerpcExtent, if_neg branch] at same ⊢
    rw [if_neg branch] at written ⊢
    have second : read4 (window addr 4) type = read4 (window addr' 4) type :=
      (Agree.window same).read4_eq type
    rw [← second]
    split at written
    · rename_i pair
      cases written
      rw [if_pos pair]
      exact ⟨_, rfl, putPowerpcPair_agree same⟩
    · rename_i noPair
      rw [if_neg noPair]
      split at written
      · rename_i pair
        cases written
        rw [if_pos pair]
        exact ⟨_, rfl, putPowerpcPair_agree same⟩
      · cases written

theorem graft_write4_agree (same : Agree (n + 4) addr addr') :
    Agree (n + 4) (graft addr n (write4 valu (window addr n) type))
      (graft addr' n (write4 valu (window addr' n) type)) := by
  have head : Agree n addr addr' := same.mono (by omega)
  have tail : Agree 4 (window addr n) (window addr' n) := Agree.window same
  exact head.graft (tail.write4 valu type)

/-- The write depends on the bytes of the field alone. -/
theorem putVc4Valu_agree (same : Agree (vc4Extent addr) addr addr')
    (written : putVc4Valu addr valu = some after) :
    ∃ after', putVc4Valu addr' valu = some after' ∧ Agree (vc4Extent addr) after after' := by
  have head := same.mono vc4Extent_ge
  have opcode := (head.mono (by omega)).read2_eq 0
  have whole := head.read4_eq 0x8000#16
  simp only [putVc4Valu] at written ⊢
  rw [← opcode, ← whole]
  simp only [vc4Extent] at same ⊢
  split at written
  · rename_i load
    rw [if_pos load] at same ⊢
    have tail : read4 (window addr 2) 0 = read4 (window addr' 2) 0 :=
      (Agree.window same).read4_eq 0
    cases written
    rw [if_pos load, ← tail]
    exact ⟨_, rfl, graft_write4_agree same⟩
  · rename_i noLoad
    rw [if_neg noLoad] at same ⊢
    rw [if_neg noLoad]
    split at written
    · rename_i branch
      cases written
      rw [if_pos branch, if_pos branch]
      exact ⟨_, rfl, head.write4 _ _⟩
    · rename_i noBranch
      rw [if_neg noBranch] at same ⊢
      rw [if_neg noBranch]
      split at written
      · rename_i link
        cases written
        rw [if_pos link, if_pos link]
        exact ⟨_, rfl, head.write4 _ _⟩
      · rename_i noLink
        rw [if_neg noLink] at same ⊢
        rw [if_neg noLink]
        split at written
        · rename_i lea
          cases written
          rw [if_pos lea]
          exact ⟨_, rfl, graft_write4_agree same⟩
        · cases written

theorem putMipsValu_agree (same : Agree 4 addr addr')
    (written : putMipsValu addr valu = some after) :
    ∃ after', putMipsValu addr' valu = some after' ∧ Agree 4 after after' := by
  simp only [putMipsValu, ← same.read4_eq 0] at written ⊢
  split at written
  · cases written
  · rename_i aligned
    cases written
    rw [if_neg aligned]
    exact ⟨_, rfl, same.write4 _ _⟩

/-- What `putvalu` puts in a field is told by the bytes of the field. -/
theorem putvalu_agree (same : Agree (extent addr type) addr addr')
    (written : putvalu valu addr type = some after) :
    ∃ after', putvalu valu addr' type = some after' ∧
      Agree (extent addr type) after after' := by
  unfold putvalu at written ⊢
  unfold extent at same ⊢
  cases size : relsz type with
  | none => simp only [size] at written; cases written
  | some kind =>
    simp only [size] at written same
    cases kind with
    | reloppc => exact putPowerpcValu_agree same written
    | relovc4 => exact putVc4Valu_agree same written
    | relomips => exact putMipsValu_agree same written
    | relo1 =>
      cases written
      exact ⟨_, rfl, same.update 0 _⟩
    | relo2 | relo2hi | relo2hisad =>
      cases written
      exact ⟨_, rfl, same.write2 _ type⟩
    | relo4 =>
      cases written
      exact ⟨_, rfl, same.write4 _ type⟩
    | reloppcLis =>
      cases written
      refine ⟨_, rfl, ?_⟩
      simp only [putLisValu, same.read4_eq type]
      exact same.write4 _ type

end Locality

/-! ## Fields of one, two and four bytes -/

section Plain

variable {addr after : Core} {type : BitVec 16} {valu : BitVec 32}

theorem word_toNat (high low : Byte) : (word high low).toNat = high.toNat * 256 + low.toNat := by
  simp only [word, BitVec.toNat_add, BitVec.toNat_shiftLeft, BitVec.truncate_eq_setWidth,
    BitVec.toNat_setWidth, Nat.shiftLeft_eq]
  omega

theorem long_toNat (high low : BitVec 16) :
    (long high low).toNat = high.toNat * 65536 + low.toNat := by
  simp only [long, BitVec.toNat_add, BitVec.toNat_shiftLeft, BitVec.truncate_eq_setWidth,
    BitVec.toNat_setWidth, Nat.shiftLeft_eq]
  omega

theorem word_bytes (valu : BitVec 16) : word (highByte valu) (lowByte valu) = valu := by
  apply BitVec.eq_of_toNat_eq
  rw [word_toNat]
  simp only [highByte, lowByte, BitVec.truncate_eq_setWidth, BitVec.toNat_setWidth,
    BitVec.toNat_ushiftRight, Nat.shiftRight_eq_div_pow]
  omega

theorem long_words (valu : BitVec 32) :
    long ((valu >>> 16).truncate 16) (valu.truncate 16) = valu := by
  apply BitVec.eq_of_toNat_eq
  rw [long_toNat]
  simp only [BitVec.truncate_eq_setWidth, BitVec.toNat_setWidth, BitVec.toNat_ushiftRight,
    Nat.shiftRight_eq_div_pow]
  omega

theorem read2_write2 (valu : BitVec 16) : read2 (write2 valu addr type) type = valu := by
  simp only [read2, write2]
  split
  · simp [put2, word_bytes]
  · simp [put2, word_bytes]

theorem read4_write4 : read4 (write4 valu addr type) type = valu := by
  simp only [read4, write4, write2]
  by_cases byteOrder : relbr type
  · by_cases wordOrder : relwr type
    · simp [byteOrder, wordOrder, graft, put2, word_bytes, long_words]
    · simp [byteOrder, wordOrder, graft, put2, word_bytes, long_words]
  · by_cases wordOrder : relwr type
    · simp [byteOrder, wordOrder, graft, put2, word_bytes, long_words]
    · simp [byteOrder, wordOrder, graft, put2, word_bytes, long_words]

/-- The fields that hold a whole number, and what that number is modulo. -/
def Relsz.modulus : Relsz → Option Nat
  | relo1 => some 256
  | relo2 => some 65536
  | relo4 => some 4294967296
  | _ => none

variable {kind : Relsz} {modulus : Nat} (size : relsz type = some kind)
  (plain : kind.modulus = some modulus)
include size plain

theorem extent_plain (addr after : Core) :
    extent addr type = extent after type := by
  unfold extent
  rw [size]
  cases kind with
  | reloppc | relovc4 => cases plain
  | _ => rfl

/-- What is read back from such a field is what was written. -/
theorem getvalu_putvalu (written : putvalu valu addr type = some after) :
    ∃ got, getvalu after type = some got ∧ got.toNat = valu.toNat % modulus := by
  unfold putvalu at written
  unfold getvalu
  simp only [size] at written ⊢
  cases kind with
  | relo1 =>
    cases plain
    cases written
    refine ⟨_, rfl, ?_⟩
    simp only [Function.update_self, BitVec.toNat_setWidth]
    omega
  | relo2 =>
    cases plain
    cases written
    refine ⟨_, rfl, ?_⟩
    simp only [read2_write2, BitVec.toNat_setWidth]
    omega
  | relo4 =>
    cases plain
    cases written
    refine ⟨_, rfl, ?_⟩
    rw [read4_write4]
    omega
  | _ => cases plain

end Plain

end AckFormal.Led
