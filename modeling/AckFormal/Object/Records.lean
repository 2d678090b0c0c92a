import AckFormal.Led.Fields
import AckFormal.Lib.Store

/-!
# Object file records

The structures of `out.h` and the bytes that they are in a file: numbers with the low
byte first and no padding.
-/

namespace AckFormal.Object

open Led (Byte)

/-! ## Numbers -/

def put2 (i : BitVec 16) : List Byte :=
  [i.truncate 8, (i >>> 8).truncate 8]

def put4 (i : BitVec 32) : List Byte :=
  put2 (i.truncate 16) ++ put2 ((i >>> 16).truncate 16)

def uget2 (c0 c1 : Byte) : BitVec 16 :=
  c0.zeroExtend 16 ||| c1.zeroExtend 16 <<< 8

def uget4 (c0 c1 c2 c3 : Byte) : BitVec 32 :=
  (uget2 c0 c1).zeroExtend 32 ||| (uget2 c2 c3).zeroExtend 32 <<< 16

theorem uget2_put2 (i : BitVec 16) :
    uget2 (i.truncate 8) ((i >>> 8).truncate 8) = i := by
  apply BitVec.eq_of_getLsbD_eq
  intro k bound
  simp only [uget2, BitVec.truncate_eq_setWidth, BitVec.getLsbD_or,
    BitVec.getLsbD_setWidth, BitVec.getLsbD_shiftLeft, BitVec.getLsbD_ushiftRight]
  by_cases low : k < 8
  · simp [low, bound]
  · have high : k - 8 < 8 := by omega
    have sum : 8 + (k - 8) = k := by omega
    have wide : k - 8 < 16 := by omega
    simp [low, bound, high, wide, sum]

theorem uget4_put4 (i : BitVec 32) :
    uget4 ((i.truncate 16 : BitVec 16).truncate 8)
      (((i.truncate 16 : BitVec 16) >>> 8).truncate 8)
      (((i >>> 16).truncate 16 : BitVec 16).truncate 8)
      ((((i >>> 16).truncate 16 : BitVec 16) >>> 8).truncate 8) = i := by
  rw [uget4, uget2_put2, uget2_put2]
  apply BitVec.eq_of_getLsbD_eq
  intro k bound
  by_cases low : k < 16
  · simp [low, bound]
  · have high : k - 16 < 16 := by omega
    have sum : 16 + (k - 16) = k := by omega
    have wide : k - 16 < 32 := by omega
    simp [low, bound, high, wide, sum]

/-! ## Structures -/

structure Outhead where
  magic : BitVec 16
  stamp : BitVec 16
  flags : BitVec 16
  nsect : BitVec 16
  nrelo : BitVec 16
  nname : BitVec 16
  nemit : BitVec 32
  nchar : BitVec 32
deriving Inhabited

structure Outsect where
  base : BitVec 32
  size : BitVec 32
  foff : BitVec 32
  flen : BitVec 32
  lign : BitVec 32
deriving Inhabited

structure Outrelo where
  type : BitVec 16
  sect : BitVec 16
  nami : BitVec 16
  addr : BitVec 32
deriving Inhabited

/-- `struct outname`, with the offset of its string in the file.  The offset is a `long`. -/
structure Outname where
  foff : BitVec 64
  type : BitVec 16
  desc : BitVec 16
  valu : BitVec 32
deriving Inhabited

def szHead : Nat := 20
def szSect : Nat := 20
def szRelo : Nat := 10
def szName : Nat := 12
def maxsect : Nat := 64

namespace Outhead

def bytes (head : Outhead) : List Byte :=
  put2 head.magic ++ put2 head.stamp ++ put2 head.flags ++ put2 head.nsect ++
    put2 head.nrelo ++ put2 head.nname ++ put4 head.nemit ++ put4 head.nchar

def offEmit (head : Outhead) : Nat := szHead + head.nsect.toNat * szSect

def offRelo (head : Outhead) : Nat := head.offEmit + head.nemit.toNat

def offName (head : Outhead) : Nat := head.offRelo + head.nrelo.toNat * szRelo

def offChar (head : Outhead) : Nat := head.offName + head.nname.toNat * szName

@[simp] theorem bytes_length (head : Outhead) : head.bytes.length = szHead := rfl

end Outhead

def Outsect.bytes (sect : Outsect) : List Byte :=
  put4 sect.base ++ put4 sect.size ++ put4 sect.foff ++ put4 sect.flen ++ put4 sect.lign

def Outrelo.bytes (relo : Outrelo) : List Byte :=
  put2 relo.type ++ put2 relo.sect ++ put2 relo.nami ++ put4 relo.addr

/-- The bytes of a record in `wr_name`: only 32 bits of the offset are written. -/
def Outname.bytes (name : Outname) : List Byte :=
  put4 (name.foff.truncate 32) ++ put2 name.type ++ put2 name.desc ++ put4 name.valu

@[simp] theorem Outsect.bytes_length (sect : Outsect) : sect.bytes.length = szSect := rfl
@[simp] theorem Outrelo.bytes_length (relo : Outrelo) : relo.bytes.length = szRelo := rfl
@[simp] theorem Outname.bytes_length (name : Outname) : name.bytes.length = szName := rfl

end AckFormal.Object
