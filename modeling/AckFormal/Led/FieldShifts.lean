import AckFormal.Led.FieldForms

/-!
# Relocations of one field compose

Each form of a field is a place with a number coded in it, and led reads and
writes exactly that number.  The form is told by bits that the writer keeps, so
a second relocation finds the form that the first one found.
-/

namespace AckFormal.Led

open Lib.Fields

/-- The forms of the fields of `RELO1`, `RELO2`, `RELO4`, `RELOPPC`, `RELOVC4`
and `RELOMIPS`. -/
inductive FieldForm where
  | byte | half | word
  | powerpcBranch | powerpcOri | powerpcMemory
  | vc4Load | vc4Branch | vc4Link | vc4Lea
  | mipsJump | mipsBranch
  deriving DecidableEq

def powerpcForm (opcode1 opcode2 : BitVec 32) : Option FieldForm :=
  if isPowerpcBranch opcode1 then some .powerpcBranch
  else if isPowerpcAddis opcode1 && isPowerpcOri opcode2 then some .powerpcOri
  else if isPowerpcAddis opcode1 && isPowerpcMemoryOp opcode2 then some .powerpcMemory
  else none

def vc4Form (opcode : BitVec 16) : Option FieldForm :=
  if opcode &&& 0xff00#16 = 0xe700#16 then some .vc4Load
  else if opcode &&& 0xf080#16 = 0x9000#16 then some .vc4Branch
  else if opcode &&& 0xf080#16 = 0x9080#16 then some .vc4Link
  else if opcode &&& 0xffe0#16 = 0xe500#16 then some .vc4Lea
  else none

def mipsForm (opcode : BitVec 32) : FieldForm :=
  if isMipsJump opcode then .mipsJump else .mipsBranch

def fieldForm (addr : Core) (type : BitVec 16) : Option FieldForm :=
  match relsz type with
  | some .relo1 => some .byte
  | some .relo2 => some .half
  | some .relo4 => some .word
  | some .reloppc => powerpcForm (read4 addr type) (read4 (window addr 4) type)
  | some .relovc4 => vc4Form (read2 addr 0)
  | some .relomips => some (mipsForm (read4 addr 0))
  | _ => none

def opcodeBits (form : FieldForm) (addr : Core) (type : BitVec 16) : List (BitVec 32) :=
  match form with
  | .byte | .half | .word => []
  | .powerpcBranch => [read4 addr type &&& 0xfc000003#32]
  | .powerpcOri | .powerpcMemory =>
    [read4 addr type &&& 0xffff0000#32, read4 (window addr 4) type &&& 0xffff0000#32]
  | .vc4Load => [(read2 addr 0).zeroExtend 32, read4 (window addr 2) 0 &&& 0xf8000000#32]
  | .vc4Branch => [read4 addr 0x8000#16 &&& 0xff800000#32]
  | .vc4Link => [read4 addr 0x8000#16 &&& 0xf0800000#32]
  | .vc4Lea => [(read2 addr 0).zeroExtend 32]
  | .mipsJump => [read4 addr 0 &&& 0xfc000000#32]
  | .mipsBranch => [read4 addr 0 &&& 0xffff0000#32]

def formUnit : FieldForm → Nat
  | .powerpcBranch | .mipsJump | .mipsBranch => 4
  | .vc4Branch | .vc4Link => 2
  | _ => 1

theorem word_whole : 32 ≤ 32 := Nat.le_refl 32

def layout (type : BitVec 16) : FieldForm → Coding Core (BitVec 32)
  | .byte => bytePlace.coding (plain 8 (by decide))
  | .half => (halfPlace type).coding (plain 16 (by decide))
  | .word => (wordPlace type).coding (plain 32 word_whole)
  | .powerpcBranch => (wordPlace type).coding powerpcBranch.coding
  | .powerpcOri =>
    (pairPlace type).coding (halves (fun hi _ => hi) (fun hi _ => hi) (fun _ _ => rfl) fun _ _ => rfl)
  | .powerpcMemory =>
    (pairPlace type).coding (halves uncarried carried carried_uncarried uncarried_carried)
  | .vc4Load => (behind 2 (wordPlace 0)).coding (lowBits load_scaled).coding
  | .vc4Branch => (wordPlace 0x8000#16).coding (lowBits branch_scaled).coding
  | .vc4Link => (wordPlace 0x8000#16).coding vc4Link.coding
  | .vc4Lea => (behind 2 (wordPlace 0)).coding (plain 32 word_whole)
  | .mipsJump => (wordPlace 0).coding (lowBits jump_scaled).coding
  | .mipsBranch => (wordPlace 0).coding (lowBits offset_scaled).coding

variable {addr : Core} {type : BitVec 16} {form : FieldForm} {d : BitVec 32}

theorem layout_step (unit : multipleOf (formUnit form) d) : (layout type form).step d := by
  cases form with
  | powerpcBranch | mipsJump | mipsBranch | vc4Branch | vc4Link => exact unit
  | vc4Load => exact Nat.mod_one _
  | _ => trivial

/-! ## Reading -/

theorem getPowerpcValu_of_form
    (found : powerpcForm (read4 addr type) (read4 (window addr 4) type) = some form) :
    getPowerpcValu addr type = some ((layout type form).decode addr) := by
  unfold powerpcForm at found
  unfold getPowerpcValu
  split at found
  · rename_i branch
    cases found
    rw [if_pos branch]
    rfl
  · rename_i noBranch
    rw [if_neg noBranch]
    split at found
    · rename_i pair
      cases found
      rw [if_pos pair, masked_half, masked_half]
      rfl
    · rename_i noPair
      rw [if_neg noPair]
      split at found
      · rename_i pair
        cases found
        rw [if_pos pair]
        rfl
      · cases found

/-- It is read in the same way. -/
theorem getVc4Valu_of_form (found : vc4Form (read2 addr 0) = some form) :
    getVc4Valu addr = some ((layout type form).decode addr) := by
  unfold vc4Form at found
  unfold getVc4Valu
  split at found
  · rename_i load
    cases found
    rw [if_pos load]
    rfl
  · rename_i noLoad
    rw [if_neg noLoad]
    split at found
    · rename_i branch
      cases found
      rw [if_pos branch]
      rfl
    · rename_i noBranch
      rw [if_neg noBranch]
      split at found
      · rename_i link
        cases found
        rw [if_pos link]
        rfl
      · rename_i noLink
        rw [if_neg noLink]
        split at found
        · rename_i lea
          cases found
          rw [if_pos lea]
          exact congrArg some (BitVec.setWidth_eq _).symm
        · cases found

theorem getMipsValu_of_form (found : mipsForm (read4 addr 0) = form) :
    getMipsValu addr = (layout type form).decode addr := by
  unfold mipsForm at found
  unfold getMipsValu
  dsimp only
  split at found
  · rename_i jump
    cases found
    rw [if_pos jump]
    rfl
  · rename_i noJump
    cases found
    rw [if_neg noJump]
    rfl

/-- What is read from a field is the number coded in it. -/
theorem getvalu_of_form (found : fieldForm addr type = some form) :
    getvalu addr type = some ((layout type form).decode addr) := by
  unfold fieldForm at found
  unfold getvalu
  cases size : relsz type with
  | none => simp only [size] at found; cases found
  | some kind =>
    simp only [size] at found
    cases kind with
    | relo1 => cases found; rfl
    | relo2 => cases found; rfl
    | relo4 =>
      cases found
      exact congrArg some (BitVec.setWidth_eq _).symm
    | reloppc => exact getPowerpcValu_of_form found
    | relovc4 => exact getVc4Valu_of_form found
    | relomips => exact congrArg some (getMipsValu_of_form (Option.some.inj found))
    | _ => cases found

/-! ## Writing -/

theorem putPowerpcValu_of_form
    (found : powerpcForm (read4 addr type) (read4 (window addr 4) type) = some form)
    (v : BitVec 32) : putPowerpcValu addr v type = some ((layout type form).encode v addr) := by
  unfold powerpcForm at found
  unfold putPowerpcValu
  split at found
  · rename_i branch
    cases found
    rw [if_pos branch]
    rfl
  · rename_i noBranch
    rw [if_neg noBranch]
    split at found
    · rename_i pair
      cases found
      rw [if_pos pair]
      rfl
    · rename_i noPair
      rw [if_neg noPair]
      split at found
      · rename_i pair
        cases found
        rw [if_pos pair]
        rfl
      · cases found

/-- The writer of `bl` touches the bits of its mask only. -/
theorem linkBits_masked (v : BitVec 32) : linkBits v &&& 0x0f7fffff#32 = linkBits v := by
  apply BitVec.eq_of_toNat_eq
  have bits := linkBits_toNat v
  rw [and_linkMask]
  omega

/-- A VC4 field is written as its form says. -/
theorem putVc4Valu_of_form (found : vc4Form (read2 addr 0) = some form) (v : BitVec 32) :
    putVc4Valu addr v = some ((layout type form).encode v addr) := by
  unfold vc4Form at found
  unfold putVc4Valu
  dsimp only
  split at found
  · rename_i load
    cases found
    rw [if_pos load]
    rfl
  · rename_i noLoad
    rw [if_neg noLoad]
    split at found
    · rename_i branch
      cases found
      rw [if_pos branch]
      rfl
    · rename_i noBranch
      rw [if_neg noBranch]
      split at found
      · rename_i link
        cases found
        rw [if_pos link]
        have bits := linkBits_masked (v / 2#32)
        unfold linkBits at bits
        rw [← bits]
        rfl
      · rename_i noLink
        rw [if_neg noLink]
        split at found
        · rename_i lea
          cases found
          rw [if_pos lea]
          have whole : v.setWidth 32 = v := BitVec.setWidth_eq v
          exact congrArg (fun x => some (graft addr 2 (write4 x (window addr 2) 0))) whole.symm
        · cases found

/-- The forms whose writer refuses what is not a multiple of the unit. -/
def Accepts (form : FieldForm) (v : BitVec 32) : Prop :=
  match form with
  | .mipsJump | .mipsBranch => multipleOf 4 v
  | _ => True

variable {v old : BitVec 32}

theorem putMipsValu_of_form (found : mipsForm (read4 addr 0) = form) (accepts : Accepts form v) :
    putMipsValu addr v = some ((layout type form).encode v addr) := by
  have unit : multipleOf 4 v := by
    unfold mipsForm at found
    split at found
    · cases found
      exact accepts
    · cases found
      exact accepts
  have aligned : v &&& 3#32 = 0#32 := by
    have low : (v &&& 3#32).toNat = v.toNat % 2 ^ 2 % 2 ^ 32 := toNat_and_low v 2
    have zero : v.toNat % 4 = 0 := unit
    exact BitVec.eq_of_toNat_eq (by rw [low]; show _ = 0; omega)
  unfold mipsForm at found
  unfold putMipsValu
  rw [if_neg (not_not.mpr aligned)]
  split at found
  · rename_i jump
    cases found
    rw [if_pos jump]
    rfl
  · rename_i noJump
    cases found
    rw [if_neg noJump]
    rfl

/-- What is written to a field is the number coded in it. -/
theorem putvalu_of_form (found : fieldForm addr type = some form) (accepts : Accepts form v) :
    putvalu v addr type = some ((layout type form).encode v addr) := by
  unfold fieldForm at found
  unfold putvalu
  cases size : relsz type with
  | none => simp only [size] at found; cases found
  | some kind =>
    simp only [size] at found
    cases kind with
    | relo1 => cases found; rfl
    | relo2 => cases found; rfl
    | relo4 =>
      cases found
      exact congrArg (fun x => some (write4 x addr type)) (BitVec.setWidth_eq v).symm
    | reloppc => exact putPowerpcValu_of_form found v
    | relovc4 => exact putVc4Valu_of_form found v
    | relomips => exact putMipsValu_of_form (Option.some.inj found) accepts
    | _ => cases found

/-- What is read from a field, and a step away from it, can be written back. -/
theorem accepts_shifted (unit : multipleOf (formUnit form) d) :
    Accepts form ((layout type form).decode addr + d) := by
  cases form with
  | mipsJump =>
    have zero : d.toNat % 4 = 0 := unit
    have sum := BitVec.toNat_add ((layout type .mipsJump).decode addr) d
    have value : ((layout type .mipsJump).decode addr).toNat % 2 ^ 28 = 2 ^ 2 * _ :=
      jump_scaled.decode (read4 addr 0)
    show _ % 4 = 0
    omega
  | mipsBranch =>
    have zero : d.toNat % 4 = 0 := unit
    have sum := BitVec.toNat_add ((layout type .mipsBranch).decode addr) d
    have value : ((layout type .mipsBranch).decode addr).toNat % 2 ^ 18 = 2 ^ 2 * _ :=
      offset_scaled.decode (read4 addr 0)
    show _ % 4 = 0
    omega
  | _ => trivial

/-! ## What a relocation keeps -/

theorem isMipsJump_eq {w : BitVec 32} (same : w &&& 0xfc000000#32 = v &&& 0xfc000000#32) :
    isMipsJump w = isMipsJump v := by
  have top (x : BitVec 32) : x >>> 26 = (x &&& 0xfc000000#32) >>> 26 := by
    have field : (x &&& 0xfc000000#32).toNat = x.toNat / 2 ^ 26 % 2 ^ 6 * 2 ^ 26 % 2 ^ 32 :=
      toNat_and_field x 26 6
    apply BitVec.eq_of_toNat_eq
    rw [BitVec.toNat_ushiftRight, BitVec.toNat_ushiftRight, field, Nat.shiftRight_eq_div_pow,
      Nat.shiftRight_eq_div_pow]
    omega
  unfold isMipsJump
  rw [top w, top v, same]

theorem and_eq_of_and_eq {n : Nat} {w v large : BitVec n} (small : BitVec n)
    (same : w &&& large = v &&& large) (inside : large &&& small = small) :
    w &&& small = v &&& small := by
  rw [← inside, ← BitVec.and_assoc, ← BitVec.and_assoc, same]

theorem powerpcForm_eq {w1 w2 v1 v2 : BitVec 32}
    (first : w1 &&& 0xffff0000#32 = v1 &&& 0xffff0000#32)
    (second : w2 &&& 0xffff0000#32 = v2 &&& 0xffff0000#32) :
    powerpcForm w1 w2 = powerpcForm v1 v2 := by
  have opcode1 := and_eq_of_and_eq 0xfc000000#32 first (by decide)
  have register := and_eq_of_and_eq 0xfc1f0000#32 first (by decide)
  have opcode2 := and_eq_of_and_eq 0xfc000000#32 second (by decide)
  unfold powerpcForm isPowerpcBranch isPowerpcAddis isPowerpcOri isPowerpcMemoryOp
  rw [opcode1, register, opcode2]

theorem powerpcForm_branch {w : BitVec 32} (branch : w &&& 0xfc000000#32 = 0x48000000#32)
    (v : BitVec 32) : powerpcForm w v = some .powerpcBranch := by
  exact if_pos (beq_iff_eq.mpr branch)

theorem vc4Form_branch {opcode : BitVec 16} (branch : opcode &&& 0xf080#16 = 0x9000#16) :
    vc4Form opcode = some .vc4Branch := by
  have noLoad : ¬ opcode &&& 0xff00#16 = 0xe700#16 := by
    intro load
    have top := and_eq_of_and_eq 0xf000#16
      (branch.trans (by decide : 0x9000#16 = 0x9000#16 &&& 0xf080#16)) (by decide)
    have other := and_eq_of_and_eq 0xf000#16
      (load.trans (by decide : 0xe700#16 = 0xe700#16 &&& 0xff00#16)) (by decide)
    exact absurd (top.symm.trans other) (by decide)
  unfold vc4Form
  rw [if_neg noLoad, if_pos branch]

theorem vc4Form_link {opcode : BitVec 16} (link : opcode &&& 0xf080#16 = 0x9080#16) :
    vc4Form opcode = some .vc4Link := by
  have noLoad : ¬ opcode &&& 0xff00#16 = 0xe700#16 := by
    intro load
    have top := and_eq_of_and_eq 0xf000#16
      (link.trans (by decide : 0x9080#16 = 0x9080#16 &&& 0xf080#16)) (by decide)
    have other := and_eq_of_and_eq 0xf000#16
      (load.trans (by decide : 0xe700#16 = 0xe700#16 &&& 0xff00#16)) (by decide)
    exact absurd (top.symm.trans other) (by decide)
  have noBranch : ¬ opcode &&& 0xf080#16 = 0x9000#16 := by
    rw [link]
    decide
  unfold vc4Form
  rw [if_neg noLoad, if_neg noBranch, if_pos link]

/-- The first two bytes are the upper half of the branch word. -/
theorem read2_eq_highHalf (addr : Core) : read2 addr 0 = highHalf (read4 addr 0x8000#16) := by
  exact (high_long _ _).symm

theorem highHalf_and (w v : BitVec 32) : highHalf (w &&& v) = highHalf w &&& highHalf v := by
  unfold highHalf
  rw [BitVec.ushiftRight_and_distrib]
  exact BitVec.setWidth_and

/-- The tests for a branch look at the bits that its writer keeps. -/
theorem branchTest_eq {addr addr' : Core}
    (same : read4 addr 0x8000#16 &&& 0xf0800000#32 = read4 addr' 0x8000#16 &&& 0xf0800000#32) :
    read2 addr 0 &&& 0xf080#16 = read2 addr' 0 &&& 0xf080#16 := by
  have mask : highHalf 0xf0800000#32 = 0xf080#16 := by decide
  rw [read2_eq_highHalf, read2_eq_highHalf, ← mask, ← highHalf_and, ← highHalf_and, same]

structure FieldKept (form : FieldForm) (type : BitVec 16) (addr after : Core) : Prop where
  found : fieldForm after type = some form
  bits : opcodeBits form after type = opcodeBits form addr type

theorem shift_outside (p : Packing 32 (BitVec 32)) (d w : BitVec 32) {other : BitVec 32}
    (apart : other &&& p.mask = 0#32) : p.coding.shift d w &&& other = w &&& other :=
  blend_outside w apart

/-- The link bit of a PowerPC branch is part of the number, but no step changes it. -/
theorem powerpcBranch_kept (w : BitVec 32) (unit : multipleOf 4 d) :
    powerpcBranch.coding.shift d w &&& 0xfc000003#32 = w &&& 0xfc000003#32 := by
  have upper : powerpcBranch.coding.shift d w &&& 0xfc000002#32 = w &&& 0xfc000002#32 :=
    shift_outside powerpcBranch d w (by decide)
  have link : powerpcBranch.coding.shift d w &&& 0x1#32 = w &&& 0x1#32 := by
    have held : powerpcBranch.coding.shift d w &&& 0x03fffffd#32 =
        ((w &&& 0x03fffffd#32) + d) &&& 0x03fffffd#32 := blend_and _ _ _
    have zero : d.toNat % 4 = 0 := unit
    have before : (w &&& 0x03fffffd#32) &&& 0x1#32 = w &&& 0x1#32 := by
      rw [BitVec.and_assoc]
      rfl
    have low (v : BitVec 32) : (v &&& 0x1#32).toNat = v.toNat % 2 ^ 1 % 2 ^ 32 := toNat_and_low v 1
    have sum := BitVec.toNat_add (w &&& 0x03fffffd#32) d
    have bit : ((w &&& 0x03fffffd#32) + d) &&& 0x1#32 = (w &&& 0x03fffffd#32) &&& 0x1#32 :=
      BitVec.eq_of_toNat_eq (by rw [low, low]; omega)
    have inner (v : BitVec 32) : v &&& 0x03fffffd#32 &&& 0x1#32 = v &&& 0x1#32 := by
      rw [BitVec.and_assoc]
      rfl
    rw [← inner (powerpcBranch.coding.shift d w), held, inner, bit, before]
  have parts (v : BitVec 32) : v &&& 0xfc000003#32 = (v &&& 0xfc000002#32) ||| (v &&& 0x1#32) := by
    rw [← BitVec.and_or_distrib_left]
    rfl
  rw [parts, parts w, upper, link]

theorem fieldForm_powerpc (size : relsz type = some .reloppc) (addr : Core) :
    fieldForm addr type = powerpcForm (read4 addr type) (read4 (window addr 4) type) := by
  unfold fieldForm
  rw [size]

theorem fieldForm_vc4 (size : relsz type = some .relovc4) (addr : Core) :
    fieldForm addr type = vc4Form (read2 addr 0) := by
  unfold fieldForm
  rw [size]

theorem fieldForm_mips (size : relsz type = some .relomips) (addr : Core) :
    fieldForm addr type = some (mipsForm (read4 addr 0)) := by
  unfold fieldForm
  rw [size]

theorem kept_pair (size : relsz type = some .reloppc) (c : Coding (BitVec 32 × BitVec 32) (BitVec 32))
    (first : ∀ w, (c.shift d w).1 &&& 0xffff0000#32 = w.1 &&& 0xffff0000#32)
    (second : ∀ w, (c.shift d w).2 &&& 0xffff0000#32 = w.2 &&& 0xffff0000#32)
    (found : fieldForm addr type = some form)
    (bits : ∀ core, opcodeBits form core type =
      [read4 core type &&& 0xffff0000#32, read4 (window core 4) type &&& 0xffff0000#32]) :
    FieldKept form type addr (((pairPlace type).coding c).shift d addr) := by
  have read := (pairPlace type).read_shift c d addr
  have one : read4 (((pairPlace type).coding c).shift d addr) type &&& 0xffff0000#32 =
      read4 addr type &&& 0xffff0000#32 :=
    (congrArg (fun w => w.1 &&& 0xffff0000#32) read).trans (first _)
  have two : read4 (window (((pairPlace type).coding c).shift d addr) 4) type &&& 0xffff0000#32 =
      read4 (window addr 4) type &&& 0xffff0000#32 :=
    (congrArg (fun w => w.2 &&& 0xffff0000#32) read).trans (second _)
  constructor
  · rw [fieldForm_powerpc size, powerpcForm_eq one two, ← fieldForm_powerpc size]
    exact found
  · rw [bits, bits, one, two]

theorem kept_powerpc (size : relsz type = some .reloppc) (found : fieldForm addr type = some form)
    (unit : multipleOf (formUnit form) d) :
    FieldKept form type addr ((layout type form).shift d addr) := by
  have test := found
  rw [fieldForm_powerpc size] at test
  unfold powerpcForm at test
  split at test
  · rename_i branch
    cases test
    have read := (wordPlace type).read_shift powerpcBranch.coding d addr
    have kept := powerpcBranch_kept (read4 addr type) unit
    have same : read4 ((layout type .powerpcBranch).shift d addr) type &&& 0xfc000003#32 =
        read4 addr type &&& 0xfc000003#32 :=
      (congrArg (fun w => w &&& 0xfc000003#32) read).trans kept
    constructor
    · rw [fieldForm_powerpc size]
      refine powerpcForm_branch ?_ _
      rw [and_eq_of_and_eq 0xfc000000#32 same (by decide)]
      exact beq_iff_eq.mp branch
    · exact congrArg (fun w => [w]) same
  · split at test
    · cases test
      exact kept_pair size _ (fun w => setHalf_outside _ _ (by decide))
        (fun w => setHalf_outside _ _ (by decide)) found fun _ => rfl
    · split at test
      · cases test
        exact kept_pair size _ (fun w => setHalf_outside _ _ (by decide))
          (fun w => setHalf_outside _ _ (by decide)) found fun _ => rfl
      · cases test

theorem kept_behind (size : relsz type = some .relovc4) (c : Coding (BitVec 32) (BitVec 32))
    (found : fieldForm addr type = some form)
    (bits : ∀ core, read2 core 0 = read2 addr 0 →
      read4 (window core 2) 0 = c.shift d (read4 (window addr 2) 0) →
      opcodeBits form core type = opcodeBits form addr type) :
    FieldKept form type addr (((behind 2 (wordPlace 0)).coding c).shift d addr) := by
  have opcode : read2 (((behind 2 (wordPlace 0)).coding c).shift d addr) 0 = read2 addr 0 :=
    read2_graft 0 _ _ (Nat.le_refl 2)
  constructor
  · rw [fieldForm_vc4 size, opcode, ← fieldForm_vc4 size]
    exact found
  · exact bits _ opcode ((behind 2 (wordPlace 0)).read_shift c d addr)

theorem kept_branch (p : Packing 32 (BitVec 32)) (d : BitVec 32) (addr : Core)
    (apart : 0xf0800000#32 &&& p.mask = 0#32) :
    read2 (((wordPlace 0x8000#16).coding p.coding).shift d addr) 0 &&& 0xf080#16 =
      read2 addr 0 &&& 0xf080#16 := by
  refine branchTest_eq ?_
  exact (congrArg (fun w => w &&& 0xf0800000#32) ((wordPlace 0x8000#16).read_shift p.coding d addr)).trans
    (shift_outside p d _ apart)

/-- Moving a VC4 field keeps its form and what it can hold. -/
theorem kept_vc4 (size : relsz type = some .relovc4) (found : fieldForm addr type = some form) :
    FieldKept form type addr ((layout type form).shift d addr) := by
  have test := found
  rw [fieldForm_vc4 size] at test
  unfold vc4Form at test
  split at test
  · cases test
    refine kept_behind size _ found fun core opcode word => ?_
    have upper : (lowBits load_scaled).coding.shift d (read4 (window addr 2) 0) &&& 0xf8000000#32 =
        read4 (window addr 2) 0 &&& 0xf8000000#32 := shift_outside _ d _ (by decide)
    unfold opcodeBits
    rw [opcode, word, upper]
  · split at test
    · rename_i branch
      cases test
      constructor
      · rw [fieldForm_vc4 size]
        exact vc4Form_branch ((kept_branch _ d addr (by decide)).trans branch)
      · have read := (wordPlace 0x8000#16).read_shift (lowBits branch_scaled).coding d addr
        have upper : (lowBits branch_scaled).coding.shift d (read4 addr 0x8000#16) &&&
            0xff800000#32 = read4 addr 0x8000#16 &&& 0xff800000#32 := shift_outside _ d _ (by decide)
        exact congrArg (fun w => [w]) ((congrArg (fun w => w &&& 0xff800000#32) read).trans upper)
    · split at test
      · rename_i link
        cases test
        constructor
        · rw [fieldForm_vc4 size]
          exact vc4Form_link ((kept_branch _ d addr (by decide)).trans link)
        · have read := (wordPlace 0x8000#16).read_shift vc4Link.coding d addr
          have upper : vc4Link.coding.shift d (read4 addr 0x8000#16) &&&
              0xf0800000#32 = read4 addr 0x8000#16 &&& 0xf0800000#32 := shift_outside _ d _ (by decide)
          exact congrArg (fun w => [w]) ((congrArg (fun w => w &&& 0xf0800000#32) read).trans upper)
      · split at test
        · cases test
          refine kept_behind size _ found fun core opcode word => ?_
          unfold opcodeBits
          rw [opcode]
        · cases test

theorem kept_mips (size : relsz type = some .relomips) (found : fieldForm addr type = some form) :
    FieldKept form type addr ((layout type form).shift d addr) := by
  have test := found
  rw [fieldForm_mips size] at test
  unfold mipsForm at test
  split at test
  · rename_i jump
    cases test
    have read := (wordPlace 0).read_shift (lowBits jump_scaled).coding d addr
    have upper : (lowBits jump_scaled).coding.shift d (read4 addr 0) &&& 0xfc000000#32 =
        read4 addr 0 &&& 0xfc000000#32 := shift_outside _ d _ (by decide)
    have same : read4 ((layout type .mipsJump).shift d addr) 0 &&& 0xfc000000#32 =
        read4 addr 0 &&& 0xfc000000#32 :=
      (congrArg (fun w => w &&& 0xfc000000#32) read).trans upper
    refine ⟨?_, congrArg (fun w => [w]) same⟩
    rw [fieldForm_mips size]
    unfold mipsForm
    rw [isMipsJump_eq same, if_pos jump]
  · rename_i noJump
    cases test
    have read := (wordPlace 0).read_shift (lowBits offset_scaled).coding d addr
    have upper : (lowBits offset_scaled).coding.shift d (read4 addr 0) &&& 0xffff0000#32 =
        read4 addr 0 &&& 0xffff0000#32 := shift_outside _ d _ (by decide)
    have same : read4 ((layout type .mipsBranch).shift d addr) 0 &&& 0xffff0000#32 =
        read4 addr 0 &&& 0xffff0000#32 :=
      (congrArg (fun w => w &&& 0xffff0000#32) read).trans upper
    refine ⟨?_, congrArg (fun w => [w]) same⟩
    rw [fieldForm_mips size]
    unfold mipsForm
    rw [isMipsJump_eq (and_eq_of_and_eq 0xfc000000#32 same (by decide)), if_neg noJump]

/-- A relocation keeps the form of a field and its opcode bits. -/
theorem field_kept (found : fieldForm addr type = some form) (unit : multipleOf (formUnit form) d) :
    FieldKept form type addr ((layout type form).shift d addr) := by
  cases size : relsz type with
  | none =>
    unfold fieldForm at found
    simp only [size] at found
    cases found
  | some kind =>
    cases kind with
    | reloppc => exact kept_powerpc size found unit
    | relovc4 => exact kept_vc4 size found
    | relomips => exact kept_mips size found
    | relo1 | relo2 | relo4 =>
      unfold fieldForm at found
      simp only [size] at found
      cases found
      refine ⟨?_, rfl⟩
      unfold fieldForm
      rw [size]
    | _ =>
      unfold fieldForm at found
      simp only [size] at found
      cases found

/-! ## Relocating twice -/

def relocateBy (d : BitVec 32) (addr : Core) (type : BitVec 16) : Option Core :=
  (getvalu addr type).bind fun v => putvalu (v + d) addr type

/-- The steps that the encoding at `addr` can represent: multiples of 4 for
PowerPC branches and MIPS, of 2 for VC4 branches, anything elsewhere. -/
def Representable (addr : Core) (type : BitVec 16) (d : BitVec 32) : Prop :=
  ∀ form, fieldForm addr type = some form → multipleOf (formUnit form) d

theorem relocateBy_eq (found : fieldForm addr type = some form)
    (unit : multipleOf (formUnit form) d) :
    relocateBy d addr type = some ((layout type form).shift d addr) := by
  unfold relocateBy
  rw [getvalu_of_form found]
  exact putvalu_of_form found (accepts_shifted unit)

theorem form_of_getPowerpcValu (readable : getPowerpcValu addr type = some old) :
    ∃ form, powerpcForm (read4 addr type) (read4 (window addr 4) type) = some form := by
  unfold getPowerpcValu at readable
  unfold powerpcForm
  dsimp only at readable
  split at readable
  · rename_i branch
    exact ⟨_, if_pos branch⟩
  · rename_i noBranch
    rw [if_neg noBranch]
    split at readable
    · rename_i pair
      exact ⟨_, if_pos pair⟩
    · rename_i noPair
      rw [if_neg noPair]
      split at readable
      · rename_i pair
        exact ⟨_, if_pos pair⟩
      · cases readable

theorem form_of_getVc4Valu (readable : getVc4Valu addr = some old) :
    ∃ form, vc4Form (read2 addr 0) = some form := by
  unfold getVc4Valu at readable
  unfold vc4Form
  dsimp only at readable
  split at readable
  · rename_i load
    exact ⟨_, if_pos load⟩
  · rename_i noLoad
    rw [if_neg noLoad]
    split at readable
    · rename_i branch
      exact ⟨_, if_pos branch⟩
    · rename_i noBranch
      rw [if_neg noBranch]
      split at readable
      · rename_i link
        exact ⟨_, if_pos link⟩
      · rename_i noLink
        rw [if_neg noLink]
        split at readable
        · rename_i lea
          exact ⟨_, if_pos lea⟩
        · cases readable

/-- The types of relocation whose fields are read and written alike. -/
def Composing (type : BitVec 16) : Prop :=
  relsz type ∈ [some .relo1, some .relo2, some .relo4, some .reloppc, some .relovc4, some .relomips]

instance (type : BitVec 16) : Decidable (Composing type) :=
  inferInstanceAs (Decidable (_ ∈ _))

theorem form_of_getvalu (composing : Composing type) (readable : getvalu addr type = some old) :
    ∃ form, fieldForm addr type = some form := by
  unfold Composing at composing
  unfold getvalu at readable
  unfold fieldForm
  cases size : relsz type with
  | none => simp only [size] at readable; cases readable
  | some kind =>
    simp only [size] at readable
    rw [size] at composing
    cases kind with
    | relo1 | relo2 | relo4 | relomips => exact ⟨_, rfl⟩
    | reloppc => exact form_of_getPowerpcValu readable
    | relovc4 => exact form_of_getVc4Valu readable
    | _ => exact absurd composing (by decide)

theorem multipleOf_add {unit : Nat} (divides : unit ∣ 2 ^ 32) {d e : BitVec 32}
    (first : multipleOf unit d) (second : multipleOf unit e) : multipleOf unit (d + e) := by
  unfold multipleOf at *
  rw [BitVec.toNat_add, Nat.mod_mod_of_dvd _ divides, Nat.add_mod, first, second, Nat.zero_mod]

theorem formUnit_dvd (form : FieldForm) : formUnit form ∣ 2 ^ 32 := by
  cases form <;> decide

/-- Relocating by two steps is relocating by their sum, and keeps the form and
the opcode bits. -/
theorem relocations_compose (addr : Core) (type : BitVec 16) (old d1 d2 : BitVec 32)
    (composing : Composing type) (readable : getvalu addr type = some old)
    (step1 : Representable addr type d1) (step2 : Representable addr type d2) :
    ∃ form one two, fieldForm addr type = some form ∧
      relocateBy d1 addr type = some one ∧ relocateBy d2 one type = some two ∧
      relocateBy (d1 + d2) addr type = some two ∧ relocateBy 0 addr type = some addr ∧
      fieldForm one type = some form ∧ opcodeBits form one type = opcodeBits form addr type ∧
      ∀ i, extent addr type ≤ i → one i = addr i := by
  obtain ⟨form, found⟩ := form_of_getvalu composing readable
  have unit1 := step1 form found
  have unit2 := step2 form found
  have first := field_kept found unit1
  have sum := multipleOf_add (formUnit_dvd form) unit1 unit2
  have none : multipleOf (formUnit form) 0 := Nat.zero_mod _
  refine ⟨form, _, _, found, relocateBy_eq found unit1, relocateBy_eq first.found unit2, ?_, ?_,
    first.found, first.bits, fun i past => ?_⟩
  · rw [relocateBy_eq found sum, (layout type form).shift_shift addr (layout_step unit1)]
  · rw [relocateBy_eq found none, (layout type form).shift_zero]
  · exact putvalu_frame (putvalu_of_form found (accepts_shifted unit1)) past

/-- An `addis` and an `lwz`, whose halves hold `0x1234fff0`. -/
def pairBytes : Core :=
  fun i => [0x3c, 0x60, 0x12, 0x35, 0x80, 0x63, 0xff, 0xf0].getD i 0

/-- A pair of PowerPC instructions moved twice. -/
theorem pair_composes :
    ∃ form one two, fieldForm pairBytes 0xc004#16 = some form ∧
      relocateBy 0x20 pairBytes 0xc004#16 = some one ∧ relocateBy 0xfffffff3 one 0xc004#16 = some two ∧
      relocateBy (0x20 + 0xfffffff3) pairBytes 0xc004#16 = some two ∧
      relocateBy 0 pairBytes 0xc004#16 = some pairBytes ∧
      fieldForm one 0xc004#16 = some form ∧
      opcodeBits form one 0xc004#16 = opcodeBits form pairBytes 0xc004#16 ∧
      ∀ i, extent pairBytes 0xc004#16 ≤ i → one i = pairBytes i := by
  have form : fieldForm pairBytes 0xc004#16 = some .powerpcMemory := by decide
  refine relocations_compose pairBytes 0xc004#16 0x1234fff0#32 0x20 0xfffffff3 (by decide) (by decide)
    (fun other found => ?_) (fun other found => ?_)
  · rw [form] at found
    cases found
    exact Nat.mod_one _
  · rw [form] at found
    cases found
    exact Nat.mod_one _

end AckFormal.Led
