import AckFormal.Object.Records

/-!
# Reading an object file

The routines of `rd.c`.  Records are read packed to where the structures are to be, and
taken apart there from the last one to the first.
-/

namespace AckFormal.Object

open Led (Byte)
open Lib

/-! ## Numbers in the memory of the host -/

/-- The byte order of the host and the number of bytes in its `long`. -/
structure Host where
  bigEndian : Bool
  long : Nat
  wide : long = 4 ∨ long = 8

def bytesOf : Nat → Nat → List Byte
  | 0, _ => []
  | n + 1, v => BitVec.ofNat 8 v :: bytesOf n (v / 256)

def valueOf : List Byte → Nat
  | [] => 0
  | b :: rest => b.toNat + 256 * valueOf rest

namespace Host

def order (host : Host) (bytes : List Byte) : List Byte :=
  if host.bigEndian then bytes.reverse else bytes

def store (host : Host) (mem : Nat → Byte) (a n v : Nat) : Nat → Byte :=
  put mem a (host.order (bytesOf n v))

def load (host : Host) (mem : Nat → Byte) (a n : Nat) : Nat :=
  valueOf (host.order (slice mem a n))

end Host

@[simp] theorem bytesOf_length (n v : Nat) : (bytesOf n v).length = n := by
  induction n generalizing v with
  | zero => rfl
  | succ n ih => rw [bytesOf, List.length_cons, ih]

theorem valueOf_bytesOf (n v : Nat) : valueOf (bytesOf n v) = v % 256 ^ n := by
  induction n generalizing v with
  | zero => simp [bytesOf, valueOf, Nat.mod_one]
  | succ n ih =>
    have power : 256 ^ (n + 1) = 256 * 256 ^ n := Nat.pow_succ'
    rw [bytesOf, valueOf, ih, BitVec.toNat_ofNat, power, Nat.mod_mul]

@[simp] theorem Host.order_length (host : Host) (bytes : List Byte) :
    (host.order bytes).length = bytes.length := by
  unfold Host.order
  split
  · exact List.length_reverse
  · rfl

theorem Host.order_order (host : Host) (bytes : List Byte) :
    host.order (host.order bytes) = bytes := by
  unfold Host.order
  split
  · exact List.reverse_reverse bytes
  · rfl

theorem Host.load_store (host : Host) (mem : Nat → Byte) (a n v : Nat) :
    host.load (host.store mem a n v) a n = v % 256 ^ n := by
  have here := put_holds mem a (host.order (bytesOf n v))
  unfold Holds at here
  rw [Host.order_length, bytesOf_length] at here
  rw [Host.load, Host.store, here, Host.order_order, valueOf_bytesOf]

theorem Host.store_outside (host : Host) (mem : Nat → Byte) {a n v x : Nat}
    (outside : x < a ∨ a + n ≤ x) : host.store mem a n v x = mem x := by
  apply put_outside
  rw [Host.order_length, bytesOf_length]
  exact outside

theorem Host.load_congr (host : Host) {mem mem' : Nat → Byte} {a n : Nat}
    (same : ∀ x, a ≤ x → x < a + n → mem x = mem' x) : host.load mem a n = host.load mem' a n := by
  rw [Host.load, Host.load, slice_congr n same]

/-! ## Decoding in place -/

/-- A field of a record: its place in the packed record, whether it takes 4 or 2 bytes
there, its place and its size in the structure, and whether `get4` is extended. -/
structure Field where
  packed : Nat
  four : Bool
  host : Nat
  width : Nat
  signed : Bool
deriving DecidableEq

namespace Field

def size (f : Field) : Nat := if f.four then 4 else 2

/-- `uget2` or `get4` at the field of the record at `c`. -/
def get (f : Field) (mem : Nat → Byte) (c : Nat) : Nat :=
  let c := c + f.packed
  if f.four then
    let value := uget4 (mem c) (mem (c + 1)) (mem (c + 2)) (mem (c + 3))
    if f.signed then (value.signExtend (8 * f.width)).toNat else value.toNat
  else (uget2 (mem c) (mem (c + 1))).toNat

/-- Take the field from the packed record at `c` to the structure at `s`. -/
def decode (host : Host) (c s : Nat) (mem : Nat → Byte) (f : Field) : Nat → Byte :=
  host.store mem (s + f.host) f.width (f.get mem c)

end Field

/-- The fields of a record in the order in which they are decoded. -/
def decodeRecord (host : Host) (fields : List Field) (c s : Nat) (mem : Nat → Byte) :
    Nat → Byte :=
  fields.foldl (Field.decode host c s) mem

/-- The loop over the records, from the last to the first. -/
def decodeTable (host : Host) (fields : List Field) (sz sizeof a : Nat) :
    Nat → (Nat → Byte) → (Nat → Byte)
  | 0, mem => mem
  | n + 1, mem =>
    decodeTable host fields sz sizeof a n
      (decodeRecord host fields (a + n * sz) (a + n * sizeof) mem)

/-- The fields go down, packed and in the structure, and never up from one to the other. -/
def Descends : List Field → Nat → Nat → Prop
  | [], _, _ => True
  | f :: rest, p, h =>
    f.packed + f.size ≤ p ∧ f.host + f.width ≤ h ∧ f.packed ≤ f.host ∧
      Descends rest f.packed f.host

instance decidableDescends : (fields : List Field) → (p h : Nat) → Decidable (Descends fields p h)
  | [], _, _ => isTrue trivial
  | f :: rest, _, _ =>
    have := decidableDescends rest f.packed f.host
    inferInstanceAs (Decidable (_ ∧ _ ∧ _ ∧ _))

section Decode

variable {host : Host} {fields : List Field} {mem mem' : Nat → Byte} {c s p h : Nat} {f : Field}

theorem Field.get_congr (same : ∀ x, c + f.packed ≤ x → x < c + f.packed + f.size → mem x = mem' x) :
    f.get mem c = f.get mem' c := by
  unfold Field.get
  unfold Field.size at same
  simp only
  split
  · rename_i four
    simp only [four, if_true] at same
    rw [same _ (by omega) (by omega), same _ (by omega) (by omega), same _ (by omega) (by omega),
      same _ (by omega) (by omega)]
  · rename_i two
    simp only [two, Bool.false_eq_true, if_false] at same
    rw [same _ (by omega) (by omega), same _ (by omega) (by omega)]

theorem decodeRecord_outside (descends : Descends fields p h) {x : Nat}
    (outside : x < s ∨ s + h ≤ x) : decodeRecord host fields c s mem x = mem x := by
  induction fields generalizing mem p h with
  | nil => rfl
  | cons f rest ih =>
    obtain ⟨_, inside, _, later⟩ := descends
    change decodeRecord host rest c s (f.decode host c s mem) x = mem x
    rw [ih later (by omega)]
    exact host.store_outside mem (by omega)

/-- Every field gets what was in the packed record before. -/
theorem decodeRecord_load (below : c ≤ s) (descends : Descends fields p h) (member : f ∈ fields) :
    host.load (decodeRecord host fields c s mem) (s + f.host) f.width =
      f.get mem c % 256 ^ f.width := by
  induction fields generalizing mem p h with
  | nil => cases member
  | cons first rest ih =>
    obtain ⟨fitsPacked, fitsHost, rises, later⟩ := descends
    change host.load (decodeRecord host rest c s (first.decode host c s mem)) _ _ = _
    rcases List.mem_cons.mp member with rfl | inRest
    · -- the fields after it are below
      have kept : ∀ x, s + f.host ≤ x → x < s + f.host + f.width →
          decodeRecord host rest c s (f.decode host c s mem) x = f.decode host c s mem x := by
        intro x low _
        exact decodeRecord_outside later (Or.inr low)
      rw [host.load_congr kept]
      exact host.load_store mem _ _ _
    · rw [ih later inRest]
      congr 1
      apply Field.get_congr
      intro x _ high
      -- what is still packed is below what has been stored
      have lower : ∀ {fields : List Field} {p h : Nat}, Descends fields p h → f ∈ fields →
          f.packed + f.size ≤ p := by
        intro fields
        induction fields with
        | nil =>
          intro _ _ _ none
          cases none
        | cons g rest ih =>
          intro p h descends member
          obtain ⟨fits, _, _, later⟩ := descends
          rcases List.mem_cons.mp member with rfl | inRest
          · exact fits
          · have := ih later inRest
            omega
      have bound := lower later inRest
      exact host.store_outside mem (by omega)

/-- Every structure gets the record that was read, although the packed records are
overwritten while they are decoded. -/
theorem decodeTable_load {sz sizeof a n k : Nat} (grows : sz ≤ sizeof)
    (descends : Descends fields sz sizeof) (bound : k < n) (member : f ∈ fields) :
    host.load (decodeTable host fields sz sizeof a n mem) (a + k * sizeof + f.host) f.width =
      f.get mem (a + k * sz) % 256 ^ f.width := by
  have outside : ∀ (n : Nat) (mem : Nat → Byte) (x : Nat), x < a ∨ a + n * sizeof ≤ x →
      decodeTable host fields sz sizeof a n mem x = mem x := by
    intro n
    induction n with
    | zero => intros; rfl
    | succ n ih =>
      intro mem x out
      rw [Nat.succ_mul] at out
      rw [decodeTable, ih _ _ (by omega)]
      exact decodeRecord_outside descends (by omega)
  have inside : ∀ {fields : List Field} {p h : Nat}, Descends fields p h → f ∈ fields →
      f.packed + f.size ≤ p ∧ f.host + f.width ≤ h := by
    intro fields
    induction fields with
    | nil =>
      intro _ _ _ none
      cases none
    | cons g rest ih =>
      intro p h descends member
      obtain ⟨fitsPacked, fitsHost, _, later⟩ := descends
      rcases List.mem_cons.mp member with rfl | inRest
      · exact ⟨fitsPacked, fitsHost⟩
      · have := ih later inRest
        omega
  obtain ⟨inPacked, inHost⟩ := inside descends member
  induction n generalizing mem with
  | zero => omega
  | succ n ih =>
    rw [decodeTable]
    have below : a + n * sz ≤ a + n * sizeof :=
      Nat.add_le_add_left (Nat.mul_le_mul_left n grows) a
    by_cases last : k = n
    · subst last
      have kept : ∀ x, a + k * sizeof + f.host ≤ x → x < a + k * sizeof + f.host + f.width →
          decodeTable host fields sz sizeof a k
            (decodeRecord host fields (a + k * sz) (a + k * sizeof) mem) x =
          decodeRecord host fields (a + k * sz) (a + k * sizeof) mem x := by
        intro x low _
        exact outside k _ x (Or.inr (by omega))
      rw [host.load_congr kept]
      exact decodeRecord_load below descends member
    · have earlier : (k + 1) * sz ≤ n * sz := Nat.mul_le_mul_right sz (by omega)
      rw [Nat.succ_mul] at earlier
      rw [ih (by omega)]
      congr 1
      apply Field.get_congr
      intro x _ high
      exact decodeRecord_outside descends (Or.inl (by omega))

end Decode

/-! ## The structures in memory -/

def headFields : List Field :=
  [⟨16, true, 16, 4, false⟩, ⟨12, true, 12, 4, false⟩, ⟨10, false, 10, 2, false⟩,
    ⟨8, false, 8, 2, false⟩, ⟨6, false, 6, 2, false⟩, ⟨4, false, 4, 2, false⟩,
    ⟨2, false, 2, 2, false⟩, ⟨0, false, 0, 2, false⟩]

def sectFields : List Field :=
  [⟨16, true, 16, 4, false⟩, ⟨12, true, 12, 4, false⟩, ⟨8, true, 8, 4, false⟩,
    ⟨4, true, 4, 4, false⟩, ⟨0, true, 0, 4, false⟩]

/-- `rd_relo`: there are two bytes of padding before `or_addr`. -/
def reloFields : List Field :=
  [⟨6, true, 8, 4, false⟩, ⟨4, false, 4, 2, false⟩, ⟨2, false, 2, 2, false⟩,
    ⟨0, false, 0, 2, false⟩]

/-- `rd_name`: the union at the start has the size of a `long`. -/
def nameFields (host : Host) : List Field :=
  [⟨8, true, host.long + 4, 4, false⟩, ⟨6, false, host.long + 2, 2, false⟩,
    ⟨4, false, host.long, 2, false⟩, ⟨0, true, 0, host.long, true⟩]

def sizeofHead : Nat := 20
def sizeofSect : Nat := 20
def sizeofRelo : Nat := 12
def sizeofName (host : Host) : Nat := host.long + 8

def loadHead (host : Host) (mem : Nat → Byte) (a : Nat) : Outhead where
  magic := BitVec.ofNat 16 (host.load mem a 2)
  stamp := BitVec.ofNat 16 (host.load mem (a + 2) 2)
  flags := BitVec.ofNat 16 (host.load mem (a + 4) 2)
  nsect := BitVec.ofNat 16 (host.load mem (a + 6) 2)
  nrelo := BitVec.ofNat 16 (host.load mem (a + 8) 2)
  nname := BitVec.ofNat 16 (host.load mem (a + 10) 2)
  nemit := BitVec.ofNat 32 (host.load mem (a + 12) 4)
  nchar := BitVec.ofNat 32 (host.load mem (a + 16) 4)

def loadSect (host : Host) (mem : Nat → Byte) (a : Nat) : Outsect where
  base := BitVec.ofNat 32 (host.load mem a 4)
  size := BitVec.ofNat 32 (host.load mem (a + 4) 4)
  foff := BitVec.ofNat 32 (host.load mem (a + 8) 4)
  flen := BitVec.ofNat 32 (host.load mem (a + 12) 4)
  lign := BitVec.ofNat 32 (host.load mem (a + 16) 4)

def loadRelo (host : Host) (mem : Nat → Byte) (a : Nat) : Outrelo where
  type := BitVec.ofNat 16 (host.load mem a 2)
  sect := BitVec.ofNat 16 (host.load mem (a + 2) 2)
  nami := BitVec.ofNat 16 (host.load mem (a + 4) 2)
  addr := BitVec.ofNat 32 (host.load mem (a + 8) 4)

def loadName (host : Host) (mem : Nat → Byte) (a : Nat) : Outname where
  foff := BitVec.ofNat 64 (host.load mem a host.long)
  type := BitVec.ofNat 16 (host.load mem (a + host.long) 2)
  desc := BitVec.ofNat 16 (host.load mem (a + host.long + 2) 2)
  valu := BitVec.ofNat 32 (host.load mem (a + host.long + 4) 4)

/-! ## The reader -/

/-- The static variables of `rd.c`; `pos` is where the open file stands. -/
structure Reader where
  offset : Nat → Nat
  outseek : Nat → Nat
  currpos : Nat
  pos : Nat
  rdBase : Nat
  sectionnr : Nat
  offcnt : Nat

structure File where
  bytes : Nat → Byte
  size : Nat

def rdPartemit : Nat := 0
def rdPartrelo : Nat := 1
def rdPartname : Nat := 2
def rdPartchar : Nat := 3

def rdOpen : Reader where
  offset := fun _ => 0
  outseek := fun _ => 0
  currpos := 0
  pos := 0
  rdBase := 0
  sectionnr := 0
  offcnt := 0

/-- `OUTREAD` to address `a`.  At the end of the file `rd_fatal` is called. -/
def outread (file : File) (r : Reader) (p : Nat) (mem : Nat → Byte) (a n : Nat) :
    Option ((Nat → Byte) × Reader) :=
  let l := r.outseek p
  let pos := if r.currpos ≠ l then l else r.pos
  if n = 0 ∨ pos + n ≤ file.size then
    some (put mem a (slice file.bytes pos n),
      { r with
        pos := pos + n
        currpos := l + n
        outseek := Function.update r.outseek p (l + n) })
  else none

def rdOhead (host : Host) (file : File) (r : Reader) (mem : Nat → Byte) (a : Nat) :
    Option ((Nat → Byte) × Reader) := do
  let (mem, r) ← outread file r rdPartemit mem a szHead
  let mem := decodeRecord host headFields a a mem
  let head := loadHead host mem a
  let outseek := Function.update r.outseek rdPartrelo (head.offRelo + r.rdBase)
  let outseek := Function.update outseek rdPartname (head.offName + r.rdBase)
  let outseek := Function.update outseek rdPartchar (head.offChar + r.rdBase)
  some (mem, { r with outseek := outseek })

/-- The assignments to `offset` in `rd_sect`. -/
def setOffsets (host : Host) (mem : Nat → Byte) (a : Nat) (r : Reader) (cnt : Nat) : Nat → Nat :=
  fun i =>
    if r.offcnt ≤ i ∧ i < r.offcnt + cnt then
      (loadSect host mem (a + (i - r.offcnt) * sizeofSect)).foff.toNat + r.rdBase
    else r.offset i

/-- `rd_sect`.  The variable `offcnt` goes up by `cnt` and down again in the loop, which
assigns inside of `offset[MAXSECT]` or has no result. -/
def rdSect (host : Host) (file : File) (r : Reader) (mem : Nat → Byte) (a cnt : Nat) :
    Option ((Nat → Byte) × Reader) := do
  let (mem, r) ← outread file r rdPartemit mem a (cnt * szSect)
  let mem := decodeTable host sectFields szSect sizeofSect a cnt mem
  if r.offcnt + cnt ≤ maxsect then some (mem, { r with offset := setOffsets host mem a r cnt })
  else none

def rdRelo (host : Host) (file : File) (r : Reader) (mem : Nat → Byte) (a cnt : Nat) :
    Option ((Nat → Byte) × Reader) := do
  let (mem, r) ← outread file r rdPartrelo mem a (cnt * szRelo)
  some (decodeTable host reloFields szRelo sizeofRelo a cnt mem, r)

def rdName (host : Host) (file : File) (r : Reader) (mem : Nat → Byte) (a cnt : Nat) :
    Option ((Nat → Byte) × Reader) := do
  let (mem, r) ← outread file r rdPartname mem a (cnt * szName)
  some (decodeTable host (nameFields host) szName (sizeofName host) a cnt mem, r)

end AckFormal.Object
