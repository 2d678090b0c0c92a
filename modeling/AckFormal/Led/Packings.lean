import AckFormal.Led.Fields
import AckFormal.Lib.Fields

/-!
# Numbers in instructions

How each instruction that led patches holds a number: which bits, scaled by
what, and modulo which power of two.  A branch holds multiples of its unit only.
-/

namespace AckFormal.Led

open Lib.Fields
open BitVec (eq_of_toNat_eq toNat_add toNat_setWidth toNat_shiftLeft toNat_udiv toNat_ushiftRight)

def modulo (n : Nat) (short : n ≤ 32) : AddCon (BitVec 32) where
  r v u := v.toNat % 2 ^ n = u.toNat % 2 ^ n
  iseqv := ⟨fun _ => rfl, fun same => same.symm, fun first second => first.trans second⟩
  add' := by
    intro v u x y first second
    have divides : 2 ^ n ∣ 2 ^ 32 := Nat.pow_dvd_pow 2 short
    rw [BitVec.toNat_add, BitVec.toNat_add, Nat.mod_mod_of_dvd _ divides,
      Nat.mod_mod_of_dvd _ divides, Nat.add_mod, first, second, ← Nat.add_mod]

/-! ## Masks and shifts as arithmetic -/

theorem nat_and_field (n low width : Nat) :
    n &&& ((2 ^ width - 1) * 2 ^ low) = n / 2 ^ low % 2 ^ width * 2 ^ low := by
  refine Nat.eq_of_testBit_eq fun i => ?_
  rw [Nat.testBit_and, ← Nat.shiftLeft_eq, ← Nat.shiftLeft_eq, Nat.testBit_shiftLeft,
    Nat.testBit_shiftLeft, Nat.testBit_two_pow_sub_one, Nat.testBit_mod_two_pow,
    ← Nat.shiftRight_eq_div_pow, Nat.testBit_shiftRight]
  by_cases above : low ≤ i
  · rw [show low + (i - low) = i by omega, Bool.and_comm, Bool.and_assoc]
  · simp [above]

theorem toNat_and_field (v : BitVec 32) (low width : Nat) :
    (v &&& BitVec.ofNat 32 ((2 ^ width - 1) * 2 ^ low)).toNat =
      v.toNat / 2 ^ low % 2 ^ width * 2 ^ low % 2 ^ 32 := by
  rw [BitVec.toNat_and, BitVec.toNat_ofNat, ← nat_and_field]
  conv_lhs => rw [← Nat.mod_eq_of_lt v.isLt]
  rw [Nat.and_mod_two_pow]

theorem toNat_and_low (v : BitVec 32) (width : Nat) :
    (v &&& BitVec.ofNat 32 (2 ^ width - 1)).toNat = v.toNat % 2 ^ width % 2 ^ 32 := by
  have field := toNat_and_field v 0 width
  rwa [pow_zero, Nat.mul_one, Nat.div_one, Nat.mul_one] at field

theorem signExtended_mod (v : BitVec 32) {k : Nat} (short : k ≤ 32) :
    ((v <<< k).sshiftRight k).toNat % 2 ^ (32 - k) = v.toNat % 2 ^ (32 - k) := by
  have low : ((v <<< k).sshiftRight k).setWidth (32 - k) = v.setWidth (32 - k) := by
    ext i bound
    simp only [BitVec.getElem_setWidth, BitVec.getLsbD_sshiftRight]
    have inside : i < 32 := by omega
    simp [inside, show k + i < 32 by omega]
  have values := congrArg BitVec.toNat low
  rwa [toNat_setWidth, toNat_setWidth] at values

theorem toNat_or_of_lt {low high : BitVec 32} {k factor : Nat} (fits : low.toNat < 2 ^ k)
    (multiple : high.toNat = factor * 2 ^ k) : (low ||| high).toNat = low.toNat + high.toNat := by
  rw [BitVec.toNat_or, multiple, Nat.or_comm, Nat.mul_comm, ← Nat.two_pow_add_eq_or_of_lt fits,
    Nat.add_comm]

/-! ## The instructions -/

def multipleOf (unit : Nat) (d : BitVec 32) : Prop := d.toNat % unit = 0

theorem and_link_bits (v : BitVec 32) :
    (v &&& 0x03fffffd#32).toNat = v.toNat % 2 ^ 26 - v.toNat / 2 % 2 * 2 := by
  have low : (v &&& 0x1#32).toNat = v.toNat % 2 ^ 1 % 2 ^ 32 := toNat_and_low v 1
  have high : (v &&& 0x03fffffc#32).toNat = v.toNat / 2 ^ 2 % 2 ^ 24 * 2 ^ 2 % 2 ^ 32 :=
    toNat_and_field v 2 24
  have parts : v &&& 0x03fffffd#32 = (v &&& 0x1#32) ||| (v &&& 0x03fffffc#32) := by
    rw [← BitVec.and_or_distrib_left]
    rfl
  have sum := @toNat_or_of_lt (v &&& 0x1#32) (v &&& 0x03fffffc#32) 2 (v.toNat / 2 ^ 2 % 2 ^ 24)
    (by omega) (by omega)
  rw [parts, sum, low, high]
  omega

/-- A PowerPC branch holds its offset with the link bit in the place of bit 0. -/
def powerpcBranch : Packing 32 (BitVec 32) where
  mask := 0x03fffffd#32
  decode w := w &&& 0x03fffffd#32
  encode v := v
  same := modulo 26 (by decide)
  step := multipleOf 4
  masked w v equal := equal
  encode_decode w := by rw [BitVec.and_assoc, BitVec.and_self]
  encode_congr {v u} same := by
    have equal : v.toNat % 2 ^ 26 = u.toNat % 2 ^ 26 := same
    apply BitVec.eq_of_toNat_eq
    rw [and_link_bits, and_link_bits]
    omega
  decode_encode {d} w step := by
    have unit : d.toNat % 4 = 0 := step
    have held := and_link_bits w
    have sum := BitVec.toNat_add (w &&& 0x03fffffd#32) d
    show ((w &&& 0x03fffffd#32) + d &&& 0x03fffffd#32).toNat % 2 ^ 26 = _ % 2 ^ 26
    rw [and_link_bits]
    omega

section LowBits

variable (bits scale : Nat)

/-- What is to be known of a reader and a writer of the last bits of a word,
which count in units of a power of two. -/
structure Scaled (decode encode : BitVec 32 → BitVec 32) : Prop where
  short : bits + scale ≤ 32
  masked : ∀ w v : BitVec 32, w.toNat % 2 ^ bits = v.toNat % 2 ^ bits → decode w = decode v
  decode : ∀ w, (decode w).toNat % 2 ^ (scale + bits) = 2 ^ scale * (w.toNat % 2 ^ bits)
  encode : ∀ v, (encode v).toNat % 2 ^ bits = v.toNat / 2 ^ scale % 2 ^ bits

theorem and_low_eq {bits : Nat} (short : bits ≤ 32) {w v : BitVec 32} :
    w &&& BitVec.ofNat 32 (2 ^ bits - 1) = v &&& BitVec.ofNat 32 (2 ^ bits - 1) ↔
      w.toNat % 2 ^ bits = v.toNat % 2 ^ bits := by
  have small (w : BitVec 32) : w.toNat % 2 ^ bits % 2 ^ 32 = w.toNat % 2 ^ bits :=
    Nat.mod_eq_of_lt (Nat.lt_of_lt_of_le (Nat.mod_lt _ (Nat.two_pow_pos bits))
      (Nat.pow_le_pow_right (by decide) short))
  rw [← BitVec.toNat_inj, toNat_and_low, toNat_and_low, small, small]

theorem quotient_mod {v scale bits : Nat} :
    v / 2 ^ scale % 2 ^ bits = v % 2 ^ (scale + bits) / 2 ^ scale := by
  rw [Nat.pow_add, Nat.mod_mul_right_div_self]

variable {bits scale} {decode encode : BitVec 32 → BitVec 32}

def lowBits (scaled : Scaled bits scale decode encode) : Packing 32 (BitVec 32) where
  mask := BitVec.ofNat 32 (2 ^ bits - 1)
  decode := decode
  encode := encode
  same := modulo (scale + bits) (by
    have short := scaled.short
    omega)
  step := multipleOf (2 ^ scale)
  masked w v equal := by
    have short := scaled.short
    exact scaled.masked w v ((and_low_eq (by omega)).mp equal)
  encode_decode w := by
    have short := scaled.short
    refine (and_low_eq (by omega)).mpr ?_
    rw [scaled.encode, quotient_mod, scaled.decode, Nat.mul_div_cancel_left _ (Nat.two_pow_pos scale)]
  encode_congr {v u} same := by
    have short := scaled.short
    have equal : v.toNat % 2 ^ (scale + bits) = u.toNat % 2 ^ (scale + bits) := same
    refine (and_low_eq (by omega)).mpr ?_
    rw [scaled.encode, scaled.encode, quotient_mod, quotient_mod, equal]
  decode_encode {d} w step := by
    have short := scaled.short
    have whole : (decode w + d).toNat % 2 ^ scale = 0 := by
      have first : (decode w).toNat % 2 ^ scale = 0 := by
        rw [← Nat.mod_mul_right_mod (decode w).toNat (2 ^ scale) (2 ^ bits), ← Nat.pow_add,
          scaled.decode, Nat.mul_mod_right]
      have second : d.toNat % 2 ^ scale = 0 := step
      rw [BitVec.toNat_add, Nat.mod_mod_of_dvd _ (Nat.pow_dvd_pow 2 (by omega)), Nat.add_mod, first,
        second, Nat.zero_mod]
    show (decode (encode (decode w + d))).toNat % 2 ^ (scale + bits) = (decode w + d).toNat % _
    rw [scaled.decode, scaled.encode, Nat.pow_add, Nat.mod_mul, whole, Nat.zero_add]

end LowBits

theorem load_scaled : Scaled 27 0 (fun w => ((w &&& 0x07ffffff#32) <<< 5).sshiftRight 5) id where
  short := by decide
  masked w v equal := by
    have same : w &&& 0x07ffffff#32 = v &&& 0x07ffffff#32 := (@and_low_eq 27 (by decide) w v).mpr equal
    rw [same]
  decode w := by
    have extended := signExtended_mod (w &&& 0x07ffffff#32) (k := 5) (by decide)
    have held : (w &&& 0x07ffffff#32).toNat = w.toNat % 2 ^ 27 % 2 ^ 32 := toNat_and_low w 27
    omega
  encode v := by
    rw [pow_zero, Nat.div_one]
    rfl

theorem branch_scaled :
    Scaled 23 1 (fun w => (w &&& 0x007fffff#32) <<< 9 >>> 9 * 2#32) (fun v => v / 2#32) where
  short := by decide
  masked w v equal := by
    have same : w &&& 0x007fffff#32 = v &&& 0x007fffff#32 := (@and_low_eq 23 (by decide) w v).mpr equal
    rw [same]
  decode w := by
    have held : (w &&& 0x007fffff#32).toNat = w.toNat % 2 ^ 23 % 2 ^ 32 := toNat_and_low w 23
    rw [BitVec.toNat_mul, toNat_ushiftRight, toNat_shiftLeft, held, Nat.shiftLeft_eq,
      Nat.shiftRight_eq_div_pow]
    show _ * 2 % 2 ^ 32 % 2 ^ 24 = 2 * _
    omega
  encode v := by
    rfl

theorem jump_scaled :
    Scaled 26 2 (fun w => (w &&& 0x03ffffff#32) <<< 2) (fun v => v >>> 2) where
  short := by decide
  masked w v equal := by
    have same : w &&& 0x03ffffff#32 = v &&& 0x03ffffff#32 := (@and_low_eq 26 (by decide) w v).mpr equal
    rw [same]
  decode w := by
    have held : (w &&& 0x03ffffff#32).toNat = w.toNat % 2 ^ 26 % 2 ^ 32 := toNat_and_low w 26
    rw [toNat_shiftLeft, held, Nat.shiftLeft_eq]
    omega
  encode v := by rw [toNat_ushiftRight, Nat.shiftRight_eq_div_pow]

theorem offset_scaled :
    Scaled 16 2 (fun w => (w <<< 16).sshiftRight 16 <<< 2) (fun v => v >>> 2) where
  short := by decide
  masked w v equal := by
    have shifted : w <<< 16 = v <<< 16 := by
      apply eq_of_toNat_eq
      rw [toNat_shiftLeft, toNat_shiftLeft, Nat.shiftLeft_eq, Nat.shiftLeft_eq]
      omega
    rw [shifted]
  decode w := by
    have extended := signExtended_mod w (k := 16) (by decide)
    rw [toNat_shiftLeft, Nat.shiftLeft_eq]
    omega
  encode v := by rw [toNat_ushiftRight, Nat.shiftRight_eq_div_pow]

/-! ## A branch whose offset is in two parts -/

/-- The bits of `bl`, with the upper four moved next to the others. -/
def linkOffset (w : BitVec 32) : BitVec 32 :=
  (w &&& 0x007fffff#32) ||| (w &&& 0x0f000000#32).sshiftRight 1

def linkBits (v : BitVec 32) : BitVec 32 :=
  (v &&& 0x007fffff#32) ||| ((v &&& 0x07800000#32) <<< 1)

theorem linkOffset_toNat (w : BitVec 32) :
    (linkOffset w).toNat = w.toNat % 2 ^ 23 + w.toNat / 2 ^ 24 % 2 ^ 4 * 2 ^ 23 := by
  have low : (w &&& 0x007fffff#32).toNat = w.toNat % 2 ^ 23 % 2 ^ 32 := toNat_and_low w 23
  have high : (w &&& 0x0f000000#32).toNat = w.toNat / 2 ^ 24 % 2 ^ 4 * 2 ^ 24 % 2 ^ 32 :=
    toNat_and_field w 24 4
  have moved : ((w &&& 0x0f000000#32).sshiftRight 1).toNat = w.toNat / 2 ^ 24 % 2 ^ 4 * 2 ^ 23 := by
    have positive : (w &&& 0x0f000000#32).msb = false := by
      rw [BitVec.msb_eq_false_iff_two_mul_lt]
      omega
    rw [BitVec.sshiftRight_eq_of_msb_false positive, toNat_ushiftRight,
      Nat.shiftRight_eq_div_pow, high]
    omega
  unfold linkOffset
  rw [toNat_or_of_lt (by omega) moved, low, moved]
  omega

theorem linkBits_toNat (v : BitVec 32) :
    (linkBits v).toNat = v.toNat % 2 ^ 23 + v.toNat / 2 ^ 23 % 2 ^ 4 * 2 ^ 24 := by
  have low : (v &&& 0x007fffff#32).toNat = v.toNat % 2 ^ 23 % 2 ^ 32 := toNat_and_low v 23
  have high : (v &&& 0x07800000#32).toNat = v.toNat / 2 ^ 23 % 2 ^ 4 * 2 ^ 23 % 2 ^ 32 :=
    toNat_and_field v 23 4
  have moved : ((v &&& 0x07800000#32) <<< 1).toNat = v.toNat / 2 ^ 23 % 2 ^ 4 * 2 ^ 24 := by
    rw [toNat_shiftLeft, Nat.shiftLeft_eq, high]
    omega
  unfold linkBits
  rw [toNat_or_of_lt (by omega) moved, low, moved]
  omega

theorem moved_closer {a b x y : Nat} (first : a < 2 ^ 23) (second : b < 2 ^ 23)
    (equal : a + x * 2 ^ 24 = b + y * 2 ^ 24) : a + x * 2 ^ 23 = b + y * 2 ^ 23 := by
  have upper {c z : Nat} (small : c < 2 ^ 23) : (c + z * 2 ^ 24) / 2 ^ 24 = z := by
    rw [Nat.add_mul_div_right _ _ (by decide), Nat.div_eq_of_lt (by omega), Nat.zero_add]
  obtain rfl : x = y := (upper first).symm.trans ((congrArg (· / 2 ^ 24) equal).trans (upper second))
  rw [Nat.add_right_cancel equal]

theorem and_linkMask (w : BitVec 32) :
    (w &&& 0x0f7fffff#32).toNat = w.toNat % 2 ^ 23 + w.toNat / 2 ^ 24 % 2 ^ 4 * 2 ^ 24 := by
  have low : (w &&& 0x007fffff#32).toNat = w.toNat % 2 ^ 23 % 2 ^ 32 := toNat_and_low w 23
  have high : (w &&& 0x0f000000#32).toNat = w.toNat / 2 ^ 24 % 2 ^ 4 * 2 ^ 24 % 2 ^ 32 :=
    toNat_and_field w 24 4
  have parts : w &&& 0x0f7fffff#32 = (w &&& 0x007fffff#32) ||| (w &&& 0x0f000000#32) := by
    rw [← BitVec.and_or_distrib_left]
    rfl
  rw [parts, @toNat_or_of_lt _ _ 24 (w.toNat / 2 ^ 24 % 2 ^ 4) (by omega) (by omega), low, high]
  omega

theorem linkDecode_mod (w : BitVec 32) :
    ((linkOffset w <<< 5).sshiftRight 5 * 2#32).toNat % 2 ^ 28 = 2 * (linkOffset w).toNat := by
  have extended := signExtended_mod (linkOffset w) (k := 5) (by decide)
  have value := linkOffset_toNat w
  show _ * 2 % 2 ^ 32 % 2 ^ 28 = _
  omega

/-- `bl`: 27 bits with a sign, in two parts. -/
def vc4Link : Packing 32 (BitVec 32) where
  mask := 0x0f7fffff#32
  decode w := (linkOffset w <<< 5).sshiftRight 5 * 2#32
  encode v := linkBits (v / 2#32)
  same := modulo 28 (by decide)
  step := multipleOf 2
  masked w v equal := by
    have values := congrArg BitVec.toNat equal
    rw [and_linkMask, and_linkMask] at values
    have offsets : linkOffset w = linkOffset v := by
      apply BitVec.eq_of_toNat_eq
      have first := Nat.mod_lt w.toNat (show 2 ^ 23 > 0 by decide)
      have second := Nat.mod_lt v.toNat (show 2 ^ 23 > 0 by decide)
      rw [linkOffset_toNat, linkOffset_toNat]
      exact moved_closer first second values
    rw [offsets]
  encode_decode w := by
    have decoded := linkDecode_mod w
    have offset := linkOffset_toNat w
    show linkBits ((linkOffset w <<< 5).sshiftRight 5 * 2#32 / 2#32) &&& 0x0f7fffff#32 =
      w &&& 0x0f7fffff#32
    generalize (linkOffset w <<< 5).sshiftRight 5 * 2#32 = v at decoded ⊢
    have half : (v / 2#32).toNat = v.toNat / 2 := BitVec.toNat_udiv
    have bits := linkBits_toNat (v / 2#32)
    apply BitVec.eq_of_toNat_eq
    rw [and_linkMask, and_linkMask]
    omega
  encode_congr {v u} same := by
    have equal : v.toNat % 2 ^ 28 = u.toNat % 2 ^ 28 := same
    have bits (v : BitVec 32) : (linkBits (v / 2#32)).toNat =
        v.toNat / 2 % 2 ^ 23 + v.toNat / 2 / 2 ^ 23 % 2 ^ 4 * 2 ^ 24 := by
      rw [linkBits_toNat, BitVec.toNat_udiv]
      rfl
    have first := bits v
    have second := bits u
    rw [show linkBits (v / 2#32) = linkBits (u / 2#32) from BitVec.eq_of_toNat_eq (by omega)]
  decode_encode {d} w step := by
    have unit : d.toNat % 2 = 0 := step
    have decoded := linkDecode_mod w
    have sum := BitVec.toNat_add ((linkOffset w <<< 5).sshiftRight 5 * 2#32) d
    generalize (linkOffset w <<< 5).sshiftRight 5 * 2#32 = x at decoded sum
    have half : ((x + d) / 2#32).toNat = (x + d).toNat / 2 := BitVec.toNat_udiv
    have bits := linkBits_toNat ((x + d) / 2#32)
    have offset := linkOffset_toNat (linkBits ((x + d) / 2#32))
    show ((linkOffset (linkBits ((x + d) / 2#32)) <<< 5).sshiftRight 5 * 2#32).toNat % 2 ^ 28 =
      (x + d).toNat % 2 ^ 28
    rw [linkDecode_mod, offset, bits, half]
    omega

/-! ## Whole words and pairs of halves -/

theorem modulo_whole {v u : BitVec 32} (same : modulo 32 (by decide) v u) : v = u := by
  have equal : v.toNat % 2 ^ 32 = u.toNat % 2 ^ 32 := same
  exact eq_of_toNat_eq (by rwa [Nat.mod_eq_of_lt v.isLt, Nat.mod_eq_of_lt u.isLt] at equal)

/-- A field of up to four bytes that holds nothing else. -/
def plain (n : Nat) (short : n ≤ 32) : Coding (BitVec n) (BitVec 32) where
  decode b := b.setWidth 32
  encode v _ := v.setWidth n
  same := modulo n short
  step _ := True
  encode_decode b := by
    rw [BitVec.setWidth_setWidth_of_le _ short, BitVec.setWidth_eq]
  encode_encode _ _ _ := rfl
  encode_congr {v u} _ same := by
    have equal : v.toNat % 2 ^ n = u.toNat % 2 ^ n := same
    exact BitVec.eq_of_toNat_eq (by rwa [BitVec.toNat_setWidth, BitVec.toNat_setWidth])
  decode_encode {d} b _ := by
    show (((b.setWidth 32 + d).setWidth n).setWidth 32).toNat % 2 ^ n =
      (b.setWidth 32 + d).toNat % 2 ^ n
    rw [BitVec.toNat_setWidth, BitVec.toNat_setWidth,
      Nat.mod_mod_of_dvd _ (Nat.pow_dvd_pow 2 short), Nat.mod_mod]

def joined (hi lo : BitVec 16) : BitVec 32 := (hi.zeroExtend 32 <<< 16) ||| lo.zeroExtend 32

def highHalf (v : BitVec 32) : BitVec 16 := (v >>> 16).truncate 16
def lowHalf (v : BitVec 32) : BitVec 16 := v.truncate 16

def setHalf (w : BitVec 32) (h : BitVec 16) : BitVec 32 := (w &&& 0xffff0000#32) ||| h.zeroExtend 32

theorem zeroExtend_toNat (h : BitVec 16) : (h.zeroExtend 32).toNat = h.toNat := by
  rw [toNat_setWidth]
  omega

theorem joined_toNat (hi lo : BitVec 16) : (joined hi lo).toNat = lo.toNat + hi.toNat * 2 ^ 16 := by
  have low := zeroExtend_toNat lo
  have high : (hi.zeroExtend 32 <<< 16).toNat = hi.toNat * 2 ^ 16 := by
    rw [toNat_shiftLeft, zeroExtend_toNat, Nat.shiftLeft_eq]
    omega
  unfold joined
  rw [BitVec.or_comm, @toNat_or_of_lt _ _ 16 hi.toNat (by omega) high, low, high]

theorem highHalf_toNat (v : BitVec 32) : (highHalf v).toNat = v.toNat / 2 ^ 16 := by
  unfold highHalf
  rw [BitVec.truncate_eq_setWidth, toNat_setWidth, toNat_ushiftRight,
    Nat.shiftRight_eq_div_pow]
  omega

theorem lowHalf_toNat (v : BitVec 32) : (lowHalf v).toNat = v.toNat % 2 ^ 16 := by
  unfold lowHalf
  rw [BitVec.truncate_eq_setWidth, toNat_setWidth]

theorem highHalf_joined (hi lo : BitVec 16) : highHalf (joined hi lo) = hi := by
  apply eq_of_toNat_eq
  rw [highHalf_toNat, joined_toNat]
  omega

theorem lowHalf_joined (hi lo : BitVec 16) : lowHalf (joined hi lo) = lo := by
  apply eq_of_toNat_eq
  rw [lowHalf_toNat, joined_toNat]
  omega

theorem joined_halves (v : BitVec 32) : joined (highHalf v) (lowHalf v) = v := by
  apply eq_of_toNat_eq
  rw [joined_toNat, highHalf_toNat, lowHalf_toNat]
  omega

theorem masked_half (w : BitVec 32) : w &&& 0xffff#32 = (lowHalf w).zeroExtend 32 := by
  have low : (w &&& 0xffff#32).toNat = w.toNat % 2 ^ 16 % 2 ^ 32 := toNat_and_low w 16
  apply eq_of_toNat_eq
  rw [zeroExtend_toNat, lowHalf_toNat, low]
  omega

theorem half_masked (h : BitVec 16) : h.zeroExtend 32 &&& 0xffff#32 = h.zeroExtend 32 := by
  have low : (h.zeroExtend 32 &&& 0xffff#32).toNat = (h.zeroExtend 32).toNat % 2 ^ 16 % 2 ^ 32 :=
    toNat_and_low _ 16
  apply eq_of_toNat_eq
  rw [low, zeroExtend_toNat]
  omega

section

variable (w : BitVec 32)
include w

theorem setHalf_eq (h : BitVec 16) :
    setHalf w h = blend 0xffff#32 w (h.zeroExtend 32) := by
  unfold setHalf blend
  rw [half_masked]
  rfl

theorem lowHalf_setHalf (h : BitVec 16) : lowHalf (setHalf w h) = h := by
  have bits := blend_and 0xffff#32 w (h.zeroExtend 32)
  rw [← setHalf_eq, masked_half, half_masked] at bits
  have values := congrArg BitVec.toNat bits
  exact eq_of_toNat_eq values

theorem setHalf_lowHalf : setHalf w (lowHalf w) = w := by
  rw [setHalf_eq, ← masked_half]
  exact (blend_congr w (by rw [BitVec.and_assoc, BitVec.and_self])).trans (blend_self _ w)

theorem setHalf_setHalf (h k : BitVec 16) :
    setHalf (setHalf w h) k = setHalf w k := by
  rw [setHalf_eq, setHalf_eq, setHalf_eq, blend_insert]

theorem setHalf_outside (h : BitVec 16) {other : BitVec 32}
    (apart : other &&& 0xffff#32 = 0#32) : setHalf w h &&& other = w &&& other := by
  rw [setHalf_eq]
  exact blend_outside w apart

end

/-- Two instructions, each with one half of the value; `apply` changes the upper
half for the sake of the lower one. -/
def halves (undo apply : BitVec 16 → BitVec 16 → BitVec 16)
    (undone : ∀ hi lo, apply (undo hi lo) lo = hi) (applied : ∀ hi lo, undo (apply hi lo) lo = hi) :
    Coding (BitVec 32 × BitVec 32) (BitVec 32) where
  decode w := joined (undo (lowHalf w.1) (lowHalf w.2)) (lowHalf w.2)
  encode v w := (setHalf w.1 (apply (highHalf v) (lowHalf v)), setHalf w.2 (lowHalf v))
  same := modulo 32 (by decide)
  step _ := True
  encode_decode w := by
    rw [highHalf_joined, lowHalf_joined, undone, setHalf_lowHalf, setHalf_lowHalf]
  encode_encode v u w := by rw [setHalf_setHalf, setHalf_setHalf]
  encode_congr _ same := by rw [modulo_whole same]
  decode_encode {d} w _ := by
    generalize joined (undo (lowHalf w.1) (lowHalf w.2)) (lowHalf w.2) + d = v
    rw [lowHalf_setHalf, lowHalf_setHalf, applied, joined_halves]
    exact (modulo 32 _).refl v

/-- The upper half counts one more when the lower one is negative. -/
def carried (hi lo : BitVec 16) : BitVec 16 := if lo > 0x7fff#16 then hi + 1#16 else hi
def uncarried (hi lo : BitVec 16) : BitVec 16 := if lo > 0x7fff#16 then hi - 1#16 else hi

theorem carried_uncarried (hi lo : BitVec 16) : carried (uncarried hi lo) lo = hi := by
  unfold carried uncarried
  split
  · rw [BitVec.sub_add_cancel]
  · rfl

theorem uncarried_carried (hi lo : BitVec 16) : uncarried (carried hi lo) lo = hi := by
  unfold carried uncarried
  split
  · rw [BitVec.add_sub_cancel]
  · rfl

end AckFormal.Led
