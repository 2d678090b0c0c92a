import AckFormal.Object.Reader
import AckFormal.Object.WriterFile

/-!
# Tables are read as they were written

What `wr_ohead`, `wr_sect`, `wr_relo` and `wr_name` write is what `rd_ohead`, `rd_sect`,
`rd_relo` and `rd_name` leave in memory.
-/

namespace AckFormal.Object

open Led (Byte)
open Function (update update_of_ne update_self)
open Lib
open List (append_nil flatten_append length_append length_map length_nil length_take map_append
  map_cons mem_map take_add)

/-! ## One record -/

section Record

variable {host : Host} {mem : Nat → Byte} {c : Nat} {bytes : List Byte} {f : Field}

theorem holds_at (holds : Holds mem c bytes) {i : Nat} {b : Byte} (here : bytes[i]? = some b) :
    mem (c + i) = b := by
  have bound := (List.getElem?_eq_some_iff.mp here).1
  rw [← holds, slice_getElem? mem c bytes.length i bound] at here
  exact Option.some.inj here

theorem get_two (holds : Holds mem c bytes) {v : BitVec 16} (two : f.four = false)
    (low : bytes[f.packed]? = some (v.truncate 8))
    (high : bytes[f.packed + 1]? = some ((v >>> 8).truncate 8)) : f.get mem c = v.toNat := by
  have low' := holds_at holds low
  have high' := holds_at holds high
  rw [← Nat.add_assoc] at high'
  simp only [Field.get, two, Bool.false_eq_true, if_false, low', high', uget2_put2]

theorem get_four (holds : Holds mem c bytes) {v : BitVec 32} (four : f.four = true)
    (here : ∀ i, i < 4 → bytes[f.packed + i]? = (put4 v)[i]?) :
    f.get mem c = if f.signed then (v.signExtend (8 * f.width)).toNat else v.toNat := by
  have at_ : ∀ i b, i < 4 → (put4 v)[i]? = some b → mem (c + f.packed + i) = b := by
    intro i b bound value
    rw [Nat.add_assoc]
    exact holds_at holds ((here i bound).trans value)
  have byte0 := at_ 0 _ (by decide) rfl
  have byte1 := at_ 1 _ (by decide) rfl
  have byte2 := at_ 2 _ (by decide) rfl
  have byte3 := at_ 3 _ (by decide) rfl
  rw [Nat.add_zero] at byte0
  simp only [Field.get, four, if_true, byte0, byte1, byte2, byte3, uget4_put4]

theorem ofNat_two (v : BitVec 16) : BitVec.ofNat 16 (v.toNat % 256 ^ 2) = v := by
  rw [Nat.mod_eq_of_lt (by omega), BitVec.ofNat_toNat, BitVec.setWidth_eq]

theorem ofNat_four (v : BitVec 32) : BitVec.ofNat 32 (v.toNat % 256 ^ 4) = v := by
  rw [Nat.mod_eq_of_lt (by omega), BitVec.ofNat_toNat, BitVec.setWidth_eq]

/-- An offset below 2^31 comes back from the 32 bits that are written. -/
theorem ofNat_long (host : Host) {foff : BitVec 64} (small : foff.toNat < 2 ^ 31) :
    BitVec.ofNat 64 (((foff.truncate 32 : BitVec 32).signExtend (8 * host.long)).toNat %
      256 ^ host.long) = foff := by
  have low : (foff.truncate 32 : BitVec 32).toNat = foff.toNat := by
    rw [BitVec.truncate_eq_setWidth, BitVec.toNat_setWidth, Nat.mod_eq_of_lt (by omega)]
  have positive : (foff.truncate 32 : BitVec 32).msb = false := by
    rw [BitVec.msb_eq_decide, low]
    simpa using small
  rw [BitVec.signExtend_eq_setWidth_of_msb_false positive, BitVec.toNat_setWidth, low]
  have value : foff.toNat % 2 ^ (8 * host.long) % 256 ^ host.long = foff.toNat := by
    rcases host.wide with four | eight
    · rw [four]
      omega
    · rw [eight]
      omega
  rw [value, BitVec.ofNat_toNat, BitVec.setWidth_eq]

theorem holds_record {β : Type*} {encode : β → List Byte} {sz : Nat}
    (sizes : ∀ record, (encode record).length = sz) {records : List β}
    (holds : Holds mem c (records.map encode).flatten) {k : Nat} {record : β}
    (here : records[k]? = some record) : Holds mem (c + k * sz) (encode record) := by
  have bound := (List.getElem?_eq_some_iff.mp here).1
  have split : records = records.take k ++ record :: records.drop (k + 1) := by
    rw [← (List.getElem?_eq_some_iff.mp here).2, ← List.drop_eq_getElem_cons bound,
      List.take_append_drop]
  have before : ((records.take k).map encode).flatten.length = k * sz := by
    rw [flatten_length sz, length_map, length_take, Nat.min_eq_left (by omega)]
    intro bytes member
    obtain ⟨record, _, rfl⟩ := mem_map.mp member
    exact sizes record
  rw [split, map_append, flatten_append, map_cons, List.flatten_cons] at holds
  have after := holds.right
  rw [before] at after
  exact after.left

end Record

section Tables

variable (host : Host) {mem : Nat → Byte} {a n k : Nat}

theorem head_loaded {head : Outhead} (holds : Holds mem a head.bytes) :
    loadHead host (decodeRecord host headFields a a mem) a = head := by
  have descends : Descends headFields szHead sizeofHead := by decide
  have field : ∀ f ∈ headFields, host.load (decodeRecord host headFields a a mem)
      (a + f.host) f.width = f.get mem a % 256 ^ f.width := by
    intro f member
    exact decodeRecord_load (Nat.le_refl a) descends member
  have magic := field ⟨0, false, 0, 2, false⟩ (by decide)
  have stamp := field ⟨2, false, 2, 2, false⟩ (by decide)
  have flags := field ⟨4, false, 4, 2, false⟩ (by decide)
  have nsect := field ⟨6, false, 6, 2, false⟩ (by decide)
  have nrelo := field ⟨8, false, 8, 2, false⟩ (by decide)
  have nname := field ⟨10, false, 10, 2, false⟩ (by decide)
  have nemit := field ⟨12, true, 12, 4, false⟩ (by decide)
  have nchar := field ⟨16, true, 16, 4, false⟩ (by decide)
  rw [get_two holds (v := head.magic) rfl rfl rfl] at magic
  rw [get_two holds (v := head.stamp) rfl rfl rfl] at stamp
  rw [get_two holds (v := head.flags) rfl rfl rfl] at flags
  rw [get_two holds (v := head.nsect) rfl rfl rfl] at nsect
  rw [get_two holds (v := head.nrelo) rfl rfl rfl] at nrelo
  rw [get_two holds (v := head.nname) rfl rfl rfl] at nname
  rw [get_four holds (v := head.nemit) rfl (by intro i bound; interval_cases i <;> rfl)] at nemit
  rw [get_four holds (v := head.nchar) rfl (by intro i bound; interval_cases i <;> rfl)] at nchar
  simp only [Nat.add_zero, Bool.false_eq_true, if_false] at magic nemit nchar
  simp only [loadHead, magic, stamp, flags, nsect, nrelo, nname, nemit, nchar, ofNat_two,
    ofNat_four]

theorem sect_loaded {sects : List Outsect} (holds : Holds mem a (sects.map Outsect.bytes).flatten)
    {sect : Outsect} (here : sects[k]? = some sect) (bound : k < n) :
    loadSect host (decodeTable host sectFields szSect sizeofSect a n mem) (a + k * sizeofSect) =
      sect := by
  have record := holds_record Outsect.bytes_length holds here
  have descends : Descends sectFields szSect sizeofSect := by decide
  have field : ∀ f ∈ sectFields,
      host.load (decodeTable host sectFields szSect sizeofSect a n mem)
        (a + k * sizeofSect + f.host) f.width = f.get mem (a + k * szSect) % 256 ^ f.width := by
    intro f member
    exact decodeTable_load (by decide) descends bound member
  have base := field ⟨0, true, 0, 4, false⟩ (by decide)
  have size := field ⟨4, true, 4, 4, false⟩ (by decide)
  have foff := field ⟨8, true, 8, 4, false⟩ (by decide)
  have flen := field ⟨12, true, 12, 4, false⟩ (by decide)
  have lign := field ⟨16, true, 16, 4, false⟩ (by decide)
  rw [get_four record (v := sect.base) rfl (by intro i bound; interval_cases i <;> rfl)] at base
  rw [get_four record (v := sect.size) rfl (by intro i bound; interval_cases i <;> rfl)] at size
  rw [get_four record (v := sect.foff) rfl (by intro i bound; interval_cases i <;> rfl)] at foff
  rw [get_four record (v := sect.flen) rfl (by intro i bound; interval_cases i <;> rfl)] at flen
  rw [get_four record (v := sect.lign) rfl (by intro i bound; interval_cases i <;> rfl)] at lign
  simp only [Nat.add_zero, Bool.false_eq_true, if_false] at base size foff flen lign
  simp only [loadSect, base, size, foff, flen, lign, ofNat_four]

theorem relo_loaded {relos : List Outrelo} (holds : Holds mem a (relos.map Outrelo.bytes).flatten)
    {relo : Outrelo} (here : relos[k]? = some relo) (bound : k < n) :
    loadRelo host (decodeTable host reloFields szRelo sizeofRelo a n mem) (a + k * sizeofRelo) =
      relo := by
  have record := holds_record Outrelo.bytes_length holds here
  have descends : Descends reloFields szRelo sizeofRelo := by decide
  have field : ∀ f ∈ reloFields,
      host.load (decodeTable host reloFields szRelo sizeofRelo a n mem)
        (a + k * sizeofRelo + f.host) f.width = f.get mem (a + k * szRelo) % 256 ^ f.width := by
    intro f member
    exact decodeTable_load (by decide) descends bound member
  have type := field ⟨0, false, 0, 2, false⟩ (by decide)
  have sect := field ⟨2, false, 2, 2, false⟩ (by decide)
  have nami := field ⟨4, false, 4, 2, false⟩ (by decide)
  have addr := field ⟨6, true, 8, 4, false⟩ (by decide)
  rw [get_two record (v := relo.type) rfl rfl rfl] at type
  rw [get_two record (v := relo.sect) rfl rfl rfl] at sect
  rw [get_two record (v := relo.nami) rfl rfl rfl] at nami
  rw [get_four record (v := relo.addr) rfl (by intro i bound; interval_cases i <;> rfl)] at addr
  simp only [Nat.add_zero, Bool.false_eq_true, if_false] at type addr
  simp only [loadRelo, type, sect, nami, addr, ofNat_two, ofNat_four]

/-- A record that was decoded in place is the one that was written. -/
theorem name_loaded {names : List Outname} (holds : Holds mem a (names.map Outname.bytes).flatten)
    {name : Outname} (here : names[k]? = some name) (small : name.foff.toNat < 2 ^ 31)
    (bound : k < n) :
    loadName host (decodeTable host (nameFields host) szName (sizeofName host) a n mem)
      (a + k * sizeofName host) = name := by
  have record := holds_record Outname.bytes_length holds here
  have wide : 4 ≤ host.long := by rcases host.wide with four | eight <;> omega
  have descends : Descends (nameFields host) szName (sizeofName host) := by
    simpa [nameFields, Descends, Field.size, szName, sizeofName] using wide
  have grows : szName ≤ sizeofName host := by
    simp only [szName, sizeofName]
    omega
  have field : ∀ f ∈ nameFields host,
      host.load (decodeTable host (nameFields host) szName (sizeofName host) a n mem)
        (a + k * sizeofName host + f.host) f.width =
          f.get mem (a + k * szName) % 256 ^ f.width := by
    intro f member
    exact decodeTable_load grows descends bound member
  have foff := field ⟨0, true, 0, host.long, true⟩ (by simp [nameFields])
  have type := field ⟨4, false, host.long, 2, false⟩ (by simp [nameFields])
  have desc := field ⟨6, false, host.long + 2, 2, false⟩ (by simp [nameFields])
  have valu := field ⟨8, true, host.long + 4, 4, false⟩ (by simp [nameFields])
  rw [get_four record (v := name.foff.truncate 32) rfl
    (by intro i bound; interval_cases i <;> rfl)] at foff
  rw [get_two record (v := name.type) rfl rfl rfl] at type
  rw [get_two record (v := name.desc) rfl rfl rfl] at desc
  rw [get_four record (v := name.valu) rfl (by intro i bound; interval_cases i <;> rfl)] at valu
  simp only [Nat.add_zero, Bool.false_eq_true, if_false, if_true, ← Nat.add_assoc]
    at foff desc valu
  simp only [loadName, foff, type, desc, valu, ofNat_two, ofNat_four, ofNat_long host small]

end Tables

/-! ## Reading -/

/-- A call after `rd_ohead`: the array that it fills and the count. -/
inductive Read where
  | sect (mem : Nat → Byte) (a cnt : Nat)
  | relo (mem : Nat → Byte) (a cnt : Nat)
  | name (mem : Nat → Byte) (a cnt : Nat)

structure Got where
  sects : List Outsect
  relos : List Outrelo
  names : List Outname

def loadAll {β : Type*} (load : (Nat → Byte) → Nat → β) (sizeof : Nat) (mem : Nat → Byte)
    (a cnt : Nat) : List β :=
  (List.range cnt).map fun k => load mem (a + k * sizeof)

def Read.run (host : Host) (file : File) (state : Reader × Got) :
    Read → Option (Reader × Got)
  | .sect mem a cnt =>
    (rdSect host file state.1 mem a cnt).map fun (mem, r) =>
      (r, { state.2 with
        sects := state.2.sects ++ loadAll (loadSect host) sizeofSect mem a cnt })
  | .relo mem a cnt =>
    (rdRelo host file state.1 mem a cnt).map fun (mem, r) =>
      (r, { state.2 with
        relos := state.2.relos ++ loadAll (loadRelo host) sizeofRelo mem a cnt })
  | .name mem a cnt =>
    (rdName host file state.1 mem a cnt).map fun (mem, r) =>
      (r, { state.2 with
        names := state.2.names ++ loadAll (loadName host) (sizeofName host) mem a cnt })

def Read.sects : Read → Nat
  | .sect _ _ cnt => cnt
  | _ => 0

def Read.relos : Read → Nat
  | .relo _ _ cnt => cnt
  | _ => 0

def Read.names : Read → Nat
  | .name _ _ cnt => cnt
  | _ => 0

structure InFile (file : File) (org : Nat) (bytes : List Byte) : Prop where
  holds : Holds file.bytes org bytes
  inside : bytes = [] ∨ org + bytes.length ≤ file.size

section Reads

variable {host : Host} {file : File} {r : Reader} {head : Outhead} {sects : List Outsect}
  {relos : List Outrelo} {names : List Outname}

theorem outread_some {p org : Nat} {before piece after : List Byte} (mem : Nat → Byte) (a : Nat)
    (stands : r.pos = r.currpos) (seek : r.outseek p = org + before.length)
    (inFile : InFile file org (before ++ (piece ++ after))) :
    ∃ r', outread file r p mem a piece.length = some (put mem a piece, r') ∧
      r'.pos = r'.currpos ∧
      r'.outseek = update r.outseek p (org + before.length + piece.length) ∧
      r'.rdBase = r.rdBase ∧ r'.offcnt = r.offcnt := by
  have here : Holds file.bytes (org + before.length) piece := inFile.holds.right.left
  have pos : (if r.currpos ≠ r.outseek p then r.outseek p else r.pos) = org + before.length := by
    split
    · exact seek
    · rename_i same
      rw [stands, Decidable.not_not.mp same, seek]
  have fits : piece.length = 0 ∨ org + before.length + piece.length ≤ file.size := by
    rcases inFile.inside with none | inside
    · left
      have lengths := congrArg List.length none
      simp only [length_append, length_nil] at lengths
      omega
    · right
      simp only [length_append] at inside
      omega
  unfold outread
  simp only [pos]
  rw [if_pos fits]
  rw [here]
  exact ⟨_, rfl, by rw [seek], by rw [seek], rfl, rfl⟩

theorem table_split {β : Type*} (encode : β → List Byte) (records : List β) (i cnt : Nat) :
    (records.map encode).flatten = ((records.take i).map encode).flatten ++
      ((((records.drop i).take cnt).map encode).flatten ++
        ((records.drop (i + cnt)).map encode).flatten) := by
  rw [← flatten_append, ← map_append, ← List.drop_drop, List.take_append_drop,
    ← flatten_append, ← map_append, List.take_append_drop]

theorem records_length {β : Type*} {encode : β → List Byte} {sz : Nat}
    (sizes : ∀ record, (encode record).length = sz) (records : List β) :
    (records.map encode).flatten.length = records.length * sz := by
  rw [flatten_length sz, length_map]
  intro bytes member
  obtain ⟨record, _, rfl⟩ := mem_map.mp member
  exact sizes record

/-- One table: the next records of it are read, and decoded in place. -/
theorem table_read {β : Type*} {encode : β → List Byte} {sz sizeof : Nat}
    {load : (Nat → Byte) → Nat → β} {fields : List Field} {P : β → Prop}
    (sizes : ∀ record, (encode record).length = sz)
    (loaded : ∀ {mem : Nat → Byte} {a n k : Nat} {records : List β} {record : β},
      Holds mem a (records.map encode).flatten → records[k]? = some record → P record → k < n →
      load (decodeTable host fields sz sizeof a n mem) (a + k * sizeof) = record)
    {records : List β} (fine : ∀ record ∈ records, P record) {p org i cnt : Nat}
    (mem : Nat → Byte) (a : Nat) (stands : r.pos = r.currpos)
    (seek : r.outseek p = org + i * sz) (inFile : InFile file org (records.map encode).flatten)
    (enough : i + cnt ≤ records.length) :
    ∃ mem' r', outread file r p mem a (cnt * sz) = some (mem', r') ∧
      loadAll load sizeof (decodeTable host fields sz sizeof a cnt mem') a cnt =
        (records.drop i).take cnt ∧
      r'.pos = r'.currpos ∧
      r'.outseek = update r.outseek p (org + (i + cnt) * sz) ∧ r'.rdBase = r.rdBase ∧
      r'.offcnt = r.offcnt := by
  have before : ((records.take i).map encode).flatten.length = i * sz := by
    rw [records_length sizes, length_take, Nat.min_eq_left (by omega)]
  have pieceCount : ((records.drop i).take cnt).length = cnt := by
    rw [length_take, List.length_drop, Nat.min_eq_left (by omega)]
  have piece : (((records.drop i).take cnt).map encode).flatten.length = cnt * sz := by
    rw [records_length sizes, pieceCount]
  rw [table_split encode records i cnt] at inFile
  rw [← before] at seek
  obtain ⟨r', ran, stands', outseek, base⟩ := outread_some mem a stands seek inFile
  rw [piece] at ran
  rw [before, piece, Nat.add_assoc, ← Nat.add_mul] at outseek
  refine ⟨_, r', ran, ?_, stands', outseek, base⟩
  apply List.ext_getElem
  · rw [loadAll, length_map, List.length_range, pieceCount]
  · intro k left right
    have bound : k < cnt := by rwa [pieceCount] at right
    simp only [loadAll, List.getElem_map, List.getElem_range]
    apply loaded (put_holds mem a _) (List.getElem?_eq_getElem right) _ bound
    exact fine _ (List.mem_of_mem_drop (List.mem_of_mem_take (List.getElem_mem right)))

/-- The tables of a file, and where the reader is in them. -/
structure Reading (file : File) (head : Outhead) (sects : List Outsect) (relos : List Outrelo)
    (names : List Outname) (i j k : Nat) (r : Reader) : Prop where
  stands : r.pos = r.currpos
  offcnt : r.offcnt = 0
  few : sects.length ≤ maxsect
  sectSeek : r.outseek rdPartemit = szHead + i * szSect
  reloSeek : r.outseek rdPartrelo = head.offRelo + j * szRelo
  nameSeek : r.outseek rdPartname = head.offName + k * szName
  sectTable : InFile file szHead (sects.map Outsect.bytes).flatten
  reloTable : InFile file head.offRelo (relos.map Outrelo.bytes).flatten
  nameTable : InFile file head.offName (names.map Outname.bytes).flatten
  small : ∀ name ∈ names, name.foff.toNat < 2 ^ 31

/-- One call of the reader fills in the records that were written there. -/
theorem Reading.run (host : Host) {i j k : Nat}
    (reading : Reading file head sects relos names i j k r) (read : Read)
    (enoughSects : i + read.sects ≤ sects.length)
    (enoughRelos : j + read.relos ≤ relos.length) (enoughNames : k + read.names ≤ names.length) :
    ∃ r', read.run host file (r, ⟨sects.take i, relos.take j, names.take k⟩) =
        some (r', ⟨sects.take (i + read.sects), relos.take (j + read.relos),
          names.take (k + read.names)⟩) ∧
      Reading file head sects relos names (i + read.sects) (j + read.relos) (k + read.names) r' := by
  cases read with
  | sect mem a cnt =>
    have enough : i + cnt ≤ sects.length := enoughSects
    obtain ⟨mem', r', ran, got, stands, outseek, _, offcnt⟩ := table_read (P := fun _ => True)
      Outsect.bytes_length (fun holds here _ bound => sect_loaded host holds here bound)
      (fun _ _ => trivial) mem a reading.stands reading.sectSeek reading.sectTable enough
    refine ⟨{ r' with
      offset := setOffsets host
        (decodeTable host sectFields szSect sizeofSect a cnt mem') a r' cnt }, ?_, ?_⟩
    · have room : r'.offcnt + cnt ≤ maxsect := by
        have few := reading.few
        rw [offcnt, reading.offcnt]
        omega
      simp only [Read.run, rdSect, ran, Option.bind_eq_bind, Option.bind_some, if_pos room,
        Option.map_some, got, Read.sects, Read.relos, Read.names, Nat.add_zero, take_add]
    · refine ⟨stands, offcnt.trans reading.offcnt, reading.few, ?_, ?_, ?_, reading.sectTable, reading.reloTable, reading.nameTable, reading.small⟩
      · rw [outseek, update_self]
        rfl
      · rw [outseek, update_of_ne (by decide)]
        exact reading.reloSeek
      · rw [outseek, update_of_ne (by decide)]
        exact reading.nameSeek
  | relo mem a cnt =>
    have enough : j + cnt ≤ relos.length := enoughRelos
    obtain ⟨mem', r', ran, got, stands, outseek, _, offcnt⟩ := table_read (P := fun _ => True)
      Outrelo.bytes_length (fun holds here _ bound => relo_loaded host holds here bound)
      (fun _ _ => trivial) mem a reading.stands reading.reloSeek reading.reloTable enough
    refine ⟨r', ?_, ?_⟩
    · simp only [Read.run, rdRelo, ran, Option.bind_eq_bind, Option.bind_some, Option.map_some,
        got, Read.sects, Read.relos, Read.names, Nat.add_zero, take_add]
    · refine ⟨stands, offcnt.trans reading.offcnt, reading.few, ?_, ?_, ?_, reading.sectTable, reading.reloTable, reading.nameTable, reading.small⟩
      · rw [outseek, update_of_ne (by decide)]
        exact reading.sectSeek
      · rw [outseek, update_self]
        rfl
      · rw [outseek, update_of_ne (by decide)]
        exact reading.nameSeek
  | name mem a cnt =>
    have enough : k + cnt ≤ names.length := enoughNames
    obtain ⟨mem', r', ran, got, stands, outseek, _, offcnt⟩ := table_read
      Outname.bytes_length
      (fun holds here small bound => name_loaded host holds here small bound)
      reading.small mem a reading.stands reading.nameSeek reading.nameTable enough
    refine ⟨r', ?_, ?_⟩
    · simp only [Read.run, rdName, ran, Option.bind_eq_bind, Option.bind_some, Option.map_some,
        got, Read.sects, Read.relos, Read.names, Nat.add_zero, take_add]
    · refine ⟨stands, offcnt.trans reading.offcnt, reading.few, ?_, ?_, ?_, reading.sectTable, reading.reloTable, reading.nameTable, reading.small⟩
      · rw [outseek, update_of_ne (by decide)]
        exact reading.sectSeek
      · rw [outseek, update_of_ne (by decide)]
        exact reading.reloSeek
      · rw [outseek, update_self]
        rfl

end Reads

/-! ## Writing and reading -/

def Call.relos : Call → List Outrelo
  | .relo relos => relos
  | _ => []

def Call.names : Call → List Outname
  | .name names => names
  | _ => []

def Call.IsTable : Call → Prop
  | .relo _ | .name _ => True
  | _ => False

/-- The tables fit the header: there is room for the sections, relocations and names.  The
sections are few enough for `offset[MAXSECT]`, to which `wr_sect` and `rd_sect` assign. -/
structure TablesFit (head : Outhead) (sects : List Outsect) (calls : List Call) : Prop where
  nsect : head.nsect.toNat = sects.length
  few : sects.length ≤ maxsect
  tables : ∀ c ∈ calls, c.IsTable
  nrelo : (calls.flatMap Call.relos).length ≤ head.nrelo.toNat
  nname : (calls.flatMap Call.names).length ≤ head.nname.toNat
  small : ∀ name ∈ calls.flatMap Call.names, name.foff.toNat < 2 ^ 31

section Written

variable {head : Outhead} {sects : List Outsect} {calls : List Call}

/-- What the calls for tables send to each part. -/
theorem traffic_tables (tables : ∀ c ∈ calls, c.IsTable) (t : Traffic) :
    (calls.foldl Traffic.call t).sent .relo =
        t.sent .relo ++ ((calls.flatMap Call.relos).map Outrelo.bytes).flatten ∧
      (calls.foldl Traffic.call t).sent .name =
        t.sent .name ++ ((calls.flatMap Call.names).map Outname.bytes).flatten ∧
      ∀ a : Area, a ≠ .relo → a ≠ .name → (calls.foldl Traffic.call t).sent a = t.sent a := by
  induction calls generalizing t with
  | nil => simp
  | cons c rest ih =>
    obtain ⟨relos, names, others⟩ :=
      ih (fun d member => tables d (List.mem_cons_of_mem c member)) (t.call c)
    have isTable := tables c List.mem_cons_self
    rw [List.foldl_cons, relos, names, List.flatMap_cons, List.flatMap_cons, map_append,
      map_append, flatten_append, flatten_append]
    cases c with
    | relo list =>
      refine ⟨?_, ?_, ?_⟩
      · simp only [Traffic.call, Traffic.add, update_self, Call.relos, List.append_assoc]
      · simp [Traffic.call, Traffic.add, Call.names]
      · intro a notRelo notName
        rw [others a notRelo notName]
        exact update_of_ne notRelo _ _
    | name list =>
      refine ⟨?_, ?_, ?_⟩
      · simp [Traffic.call, Traffic.add, Call.relos]
      · simp only [Traffic.call, Traffic.add, update_self, Call.names, List.append_assoc]
      · intro a notRelo notName
        rw [others a notRelo notName]
        exact update_of_ne notName _ _
    | _ => exact absurd isTable id

theorem track_tables (tables : ∀ c ∈ calls, c.IsTable) (state : Nat × Nat) :
    calls.foldl track (some state) = some state := by
  induction calls with
  | nil => rfl
  | cons c rest ih =>
    have isTable := tables c List.mem_cons_self
    have later := ih (fun d member => tables d (List.mem_cons_of_mem c member))
    cases c with
    | relo _ | name _ => exact later
    | _ => exact absurd isTable id

theorem TablesFit.sent (fit : TablesFit head sects calls) :
    (traffic calls).sent .relo = ((calls.flatMap Call.relos).map Outrelo.bytes).flatten ∧
      (traffic calls).sent .name = ((calls.flatMap Call.names).map Outname.bytes).flatten ∧
      ∀ a : Area, a ≠ .relo → a ≠ .name → (traffic calls).sent a = [] := by
  obtain ⟨relos, names, others⟩ := traffic_tables fit.tables Traffic.start
  exact ⟨relos, names, others⟩

/-- The areas of a file of tables do not overlap. -/
theorem TablesFit.apart (fit : TablesFit head sects calls) :
    Apart head sects fun a => (Area.bytes head sects (traffic calls) a).length := by
  obtain ⟨relos, names, others⟩ := fit.sent
  have nrelo := Nat.mul_le_mul_right szRelo fit.nrelo
  have reloLength : (Area.bytes head sects (traffic calls) .relo).length ≤
      head.nrelo.toNat * szRelo := by
    rw [Area.bytes, relos, front_nil (by decide), List.nil_append,
      records_length Outrelo.bytes_length]
    exact nrelo
  have tableLength : (Area.bytes head sects (traffic calls) (.sect 0)).length = head.offEmit := by
    rw [Area.bytes, others _ (by decide) (by decide), append_nil]
    exact table_length fit.nsect
  -- an area that is not empty is the first one, or the relocations or names
  have nonempty : ∀ a : Area, ∀ x, a.start head sects ≤ x →
      x < a.start head sects + (Area.bytes head sects (traffic calls) a).length →
      (a = .sect 0 ∧ x < head.offRelo) ∨
        (a = .relo ∧ head.offRelo ≤ x ∧ x < head.offName) ∨ (a = .name ∧ head.offName ≤ x) := by
    intro a x low high
    by_cases first : a = .sect 0
    · subst first
      rw [tableLength, Area.start, Nat.zero_add] at high
      left
      refine ⟨rfl, ?_⟩
      rw [Outhead.offRelo]
      omega
    · by_cases isRelo : a = .relo
      · subst isRelo
        simp only [Area.start] at low high
        right
        left
        refine ⟨rfl, low, ?_⟩
        rw [Outhead.offName]
        omega
      · by_cases isName : a = .name
        · subst isName
          exact Or.inr (Or.inr ⟨rfl, low⟩)
        · rw [Area.bytes, front_nil first, others a isRelo isName, append_nil,
            length_nil] at high
          omega
  intro a b _ _ other x lowA highA lowB highB
  rcases nonempty a x lowA highA with ⟨rfl, _⟩ | ⟨rfl, _, _⟩ | ⟨rfl, _⟩
  · rcases nonempty b x lowB highB with ⟨rfl, _⟩ | ⟨rfl, _, _⟩ | ⟨rfl, _⟩
    · exact other rfl
    · omega
    · simp only [Outhead.offName] at *
      omega
  · rcases nonempty b x lowB highB with ⟨rfl, _⟩ | ⟨rfl, _, _⟩ | ⟨rfl, _⟩
    · omega
    · exact other rfl
    · omega
  · rcases nonempty b x lowB highB with ⟨rfl, _⟩ | ⟨rfl, _, _⟩ | ⟨rfl, _⟩
    · simp only [Outhead.offName] at *
      omega
    · omega
    · exact other rfl

end Written

def writtenFile (wbuf : Wbuf) (head : Outhead) (sects : List Outsect) (calls : List Call) : File :=
  ⟨(Writer.write wbuf head sects calls).file, (Writer.write wbuf head sects calls).size⟩

section WrittenFile

variable (wbuf : Wbuf) {head : Outhead} {sects : List Outsect} {calls : List Call}

variable (fit : TablesFit head sects calls)
include fit

theorem TablesFit.settled :
    ∃ held, Settled wbuf head sects (traffic calls) held
      (calls.foldl (Writer.call wbuf) (Writer.wrSect wbuf (Writer.wrOhead wbuf Writer.wrOpen head)
        sects)) := by
  have valid : ∀ c ∈ calls, c.Valid sects := by
    intro c member
    have isTable := fit.tables c member
    cases c with
    | outsect _ => exact absurd isTable id
    | _ => trivial
  have right : (tracked calls).isSome = true := by
    rw [tracked, track_tables fit.tables]
    rfl
  exact (settled_start wbuf head sects).calls valid right fit.apart (fun _ _ => Nat.le_refl _)

theorem TablesFit.area (a : Area) (live : a.Live sects) :
    InFile (writtenFile wbuf head sects calls) (a.start head sects)
      (Area.bytes head sects (traffic calls) a) := by
  obtain ⟨held, settled⟩ := fit.settled wbuf
  obtain ⟨holds, size⟩ := settled.close fit.apart (fun _ _ => Nat.le_refl _) a live
  rw [writtenFile, Writer.write]
  constructor
  · dsimp only
    exact holds
  · dsimp only
    exact size

theorem TablesFit.headTable :
    InFile (writtenFile wbuf head sects calls) 0
      ([] ++ (head.bytes ++ (sects.map Outsect.bytes).flatten)) := by
  obtain ⟨_, _, others⟩ := fit.sent
  have table := fit.area wbuf (.sect 0) (Or.inl rfl)
  rw [Area.bytes, others _ (by decide) (by decide), append_nil] at table
  exact table

theorem TablesFit.sectTable :
    InFile (writtenFile wbuf head sects calls) szHead (sects.map Outsect.bytes).flatten := by
  have table := fit.headTable wbuf
  rw [List.nil_append] at table
  constructor
  · have after := table.holds.right
    exact after
  · right
    have inside := table.inside.resolve_left (by
      intro none
      have lengths := congrArg List.length none
      simp only [length_append, Outhead.bytes_length, length_nil, szHead] at lengths
      omega)
    rw [length_append, Outhead.bytes_length, Nat.zero_add] at inside
    exact inside

theorem TablesFit.reloTable :
    InFile (writtenFile wbuf head sects calls) head.offRelo
      ((calls.flatMap Call.relos).map Outrelo.bytes).flatten := by
  obtain ⟨relos, _, _⟩ := fit.sent
  have table := fit.area wbuf .relo trivial
  rw [Area.bytes, relos] at table
  exact table

theorem TablesFit.nameTable :
    InFile (writtenFile wbuf head sects calls) head.offName
      ((calls.flatMap Call.names).map Outname.bytes).flatten := by
  obtain ⟨_, names, _⟩ := fit.sent
  have table := fit.area wbuf .name trivial
  rw [Area.bytes, names] at table
  exact table

/-- `rd_ohead` returns the header, and leaves the reader at the start of the tables. -/
theorem TablesFit.rdOhead (host : Host) (mem : Nat → Byte) (a : Nat) :
    ∃ mem' r, AckFormal.Object.rdOhead host (writtenFile wbuf head sects calls) rdOpen mem a =
        some (mem', r) ∧
      loadHead host mem' a = head ∧
      Reading (writtenFile wbuf head sects calls) head sects (calls.flatMap Call.relos)
        (calls.flatMap Call.names) 0 0 0 r := by
  have headLoaded := head_loaded host (put_holds mem a head.bytes)
  obtain ⟨r, ran, stands, outseek, base, offcnt⟩ := outread_some (r := rdOpen) (p := rdPartemit) mem a rfl
    rfl (fit.headTable wbuf)
  rw [Outhead.bytes_length] at ran
  refine ⟨decodeRecord host headFields a a (put mem a head.bytes), { r with
        outseek := update (update (update r.outseek rdPartrelo
          (head.offRelo + r.rdBase)) rdPartname (head.offName + r.rdBase)) rdPartchar
          (head.offChar + r.rdBase) }, ?_, headLoaded, ?_⟩
  · simp only [AckFormal.Object.rdOhead, ran, Option.bind_eq_bind, Option.bind_some, headLoaded]
  · refine ⟨stands, offcnt, fit.few, ?_, ?_, ?_, fit.sectTable wbuf, fit.reloTable wbuf, fit.nameTable wbuf, fit.small⟩
    · simp only [update_of_ne (show rdPartemit ≠ rdPartchar by decide), outseek]
      rfl
    · simp only [update_of_ne (show rdPartrelo ≠ rdPartchar by decide),
        update_of_ne (show rdPartrelo ≠ rdPartname by decide), update_self, base]
      rfl
    · simp only [update_of_ne (show rdPartname ≠ rdPartchar by decide), update_self, base]
      rfl

end WrittenFile

/-- Any reads from a reader that stands at the next records of every table. -/
theorem Reading.runs (host : Host) {file : File} {head : Outhead} {sects : List Outsect}
    {relos : List Outrelo} {names : List Outname} (reads : List Read) :
    ∀ {r : Reader} {i j k : Nat}, Reading file head sects relos names i j k r →
      i + (reads.map Read.sects).sum ≤ sects.length →
      j + (reads.map Read.relos).sum ≤ relos.length →
      k + (reads.map Read.names).sum ≤ names.length →
      ∃ r', reads.foldlM (Read.run host file) (r, ⟨sects.take i, relos.take j, names.take k⟩) =
        some (r', ⟨sects.take (i + (reads.map Read.sects).sum),
          relos.take (j + (reads.map Read.relos).sum),
          names.take (k + (reads.map Read.names).sum)⟩) := by
  induction reads with
  | nil =>
    intro r i j k _ _ _ _
    exact ⟨r, rfl⟩
  | cons read rest ih =>
    intro r i j k reading moreSects moreRelos moreNames
    simp only [map_cons, List.sum_cons, ← Nat.add_assoc] at moreSects moreRelos moreNames ⊢
    obtain ⟨next, stepped, reading'⟩ := reading.run host read (by omega) (by omega) (by omega)
    obtain ⟨r', later⟩ := ih reading' moreSects moreRelos moreNames
    refine ⟨r', ?_⟩
    rw [List.foldlM_cons, stepped]
    exact later

/-- The header and any number of records, asked for in any pieces and in any order of the
tables, are read as they were written. -/
theorem read_written (wbuf : Wbuf) (host : Host) (head : Outhead) (sects : List Outsect)
    (calls : List Call) (fit : TablesFit head sects calls) (mem : Nat → Byte) (a : Nat)
    (reads : List Read) (enoughSects : (reads.map Read.sects).sum ≤ sects.length)
    (enoughRelos : (reads.map Read.relos).sum ≤ (calls.flatMap Call.relos).length)
    (enoughNames : (reads.map Read.names).sum ≤ (calls.flatMap Call.names).length) :
    ∃ mem' r r', rdOhead host (writtenFile wbuf head sects calls) rdOpen mem a = some (mem', r) ∧
      loadHead host mem' a = head ∧
      reads.foldlM (Read.run host (writtenFile wbuf head sects calls)) (r, ⟨[], [], []⟩) =
        some (r', ⟨sects.take (reads.map Read.sects).sum,
          (calls.flatMap Call.relos).take (reads.map Read.relos).sum,
          (calls.flatMap Call.names).take (reads.map Read.names).sum⟩) := by
  obtain ⟨mem', r, ran, headLoaded, reading⟩ := fit.rdOhead wbuf host mem a
  obtain ⟨r', finished⟩ := reading.runs host reads (by omega) (by omega) (by omega)
  simp only [Nat.zero_add, List.take_zero] at finished
  exact ⟨mem', r, r', ran, headLoaded, finished⟩

def littleHost : Host := ⟨false, 8, Or.inr rfl⟩

def tableHead : Outhead := ⟨0x202, 0, 0, 1, 1, 2, 0, 0⟩

def tableSects : List Outsect := [⟨0x1000, 16, 32, 0, 4⟩]

def tableCalls : List Call :=
  [.name [⟨72, 0x8001, 0, 0xffffffff⟩], .relo [⟨4, 0x8000, 1, 12⟩], .name [⟨73, 2, 0, 8⟩]]

theorem tableCalls_fit : TablesFit tableHead tableSects tableCalls where
  nsect := rfl
  few := by decide
  tables := by simp [tableCalls, Call.IsTable]
  nrelo := by decide
  nname := by decide
  small := by decide

def clearMem : Nat → Byte := fun _ => 0

/-- The names are asked for at once, before the sections. -/
theorem read_two_names :
    ∃ mem' r r', rdOhead littleHost (writtenFile wbuf1024 tableHead tableSects tableCalls) rdOpen
        clearMem 0 = some (mem', r) ∧
      loadHead littleHost mem' 0 = tableHead ∧
      [Read.name clearMem 0 2, Read.sect clearMem 0 1, Read.relo clearMem 0 1].foldlM
        (Read.run littleHost (writtenFile wbuf1024 tableHead tableSects tableCalls))
        (r, ⟨[], [], []⟩) =
        some (r', ⟨tableSects, [⟨4, 0x8000, 1, 12⟩], [⟨72, 0x8001, 0, 0xffffffff⟩, ⟨73, 2, 0, 8⟩]⟩) :=
  read_written wbuf1024 littleHost tableHead tableSects tableCalls tableCalls_fit clearMem 0
    [.name clearMem 0 2, .sect clearMem 0 1, .relo clearMem 0 1]
    (Nat.le_refl 1) (Nat.le_refl 1) (Nat.le_refl 2)

def manyHead : Outhead := ⟨0x202, 0, 0, 65, 0, 0, 0, 0⟩

def manySects : List Outsect := List.replicate 65 ⟨0, 0, 0, 0, 1⟩

/-- `rd_sect` does not return 65 sections. -/
theorem sections_not_read :
    ¬ ∃ mem' r r', rdOhead littleHost (writtenFile wbuf1024 manyHead manySects []) rdOpen
        clearMem 0 = some (mem', r) ∧
      loadHead littleHost mem' 0 = manyHead ∧
      [Read.sect clearMem 0 65].foldlM
        (Read.run littleHost (writtenFile wbuf1024 manyHead manySects [])) (r, ⟨[], [], []⟩) =
        some (r', ⟨manySects, [], []⟩) := by
  rintro ⟨mem', r, r', -, -, run⟩
  have overrun : ∀ file (r : Reader), rdSect littleHost file r clearMem 0 65 = none := by
    intro file r
    unfold rdSect
    cases outread file r rdPartemit clearMem 0 (65 * szSect) with
    | none => rfl
    | some read =>
      obtain ⟨mem, r⟩ := read
      have outside : ¬ r.offcnt + 65 ≤ maxsect := by
        unfold maxsect
        omega
      dsimp only [Option.bind_eq_bind, Option.bind_some]
      rw [if_neg outside]
  simp [Read.run, overrun] at run

end AckFormal.Object
