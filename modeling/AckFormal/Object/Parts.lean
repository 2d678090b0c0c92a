import AckFormal.Object.Records

/-!
# Buffered parts

The output file of `wr.c` is open once for each part, and every part has a buffer.
A part writes at its own place: what is in the file and what is still in the buffer
make one list of bytes.
-/

namespace AckFormal.Object

open Led (Byte)
open Function (update update_of_ne update_self)
open Lib

/-- `WBUFSIZ` is a power of two, and no `BUFSIZ` is smaller than 256. -/
structure Wbuf where
  bits : Nat
  large : 8 ≤ bits

def Wbuf.siz (wbuf : Wbuf) : Nat := 2 ^ wbuf.bits

theorem Wbuf.le_siz (wbuf : Wbuf) : 256 ≤ wbuf.siz :=
  Nat.pow_le_pow_right (show 0 < 2 by decide) wbuf.large

/-- `struct fil`.  Pointers into `pbuf` are indices; `fd` is where the open file stands. -/
structure Fil where
  cnt : Nat
  pnow : Nat
  pbegin : Nat
  currpos : Nat
  fd : Nat
  pbuf : Nat → Byte

/-- The static variables of `wr.c` and the output file: its bytes and its length. -/
structure Writer where
  offset : Nat → Nat
  parts : Nat → Fil
  sectionnr : Nat
  offcnt : Nat
  file : Nat → Byte
  size : Nat

def sectcnt : Nat := 3
def partemit : Nat := 0
def partrelo : Nat := partemit + sectcnt
def partname : Nat := partrelo + 1
def partchar : Nat := partname + 1
def nparts : Nat := partchar + 1

def getsect (s : Nat) : Nat := partemit + if sectcnt - 1 ≤ s then sectcnt - 1 else s

namespace Writer

def setPart (w : Writer) (p : Nat) (fil : Fil) : Writer :=
  { w with parts := update w.parts p fil }

/-- `wr_bytes` on the file of part `p` and the bookkeeping after it. -/
def wrBytes (w : Writer) (p : Nat) (b : List Byte) : Writer :=
  let ptr := w.parts p
  let currpos := ptr.currpos + b.length
  { w with
    file := put w.file ptr.fd b
    size := if b.isEmpty then w.size else max w.size (ptr.fd + b.length)
    parts := update w.parts p { ptr with fd := ptr.fd + b.length, currpos := currpos }
    offset := if p < partemit + sectcnt then update w.offset w.sectionnr currpos
      else w.offset }

def pending (w : Writer) (p : Nat) : List Byte :=
  slice (w.parts p).pbuf (w.parts p).pbegin ((w.parts p).pnow - (w.parts p).pbegin)

def wrFlush (wbuf : Wbuf) (w : Writer) (p : Nat) : Writer :=
  let w := if (w.parts p).pbegin < (w.parts p).pnow then w.wrBytes p (w.pending p) else w
  w.setPart p { w.parts p with cnt := wbuf.siz, pnow := 0, pbegin := 0 }

def store (w : Writer) (p : Nat) (b : List Byte) : Writer :=
  let ptr := w.parts p
  w.setPart p
    { ptr with
      cnt := ptr.cnt - b.length
      pnow := ptr.pnow + b.length
      pbuf := put ptr.pbuf ptr.pnow b }

/-- The second half of `OUTWRITE`: whole buffers go to the file. -/
def outwriteBlocks (wbuf : Wbuf) (w : Writer) (p : Nat) (b : List Byte) : Writer :=
  if (w.parts p).cnt = 0 ∨ (w.parts p).cnt = wbuf.siz then
    let w := wrFlush wbuf w p
    let m := b.length - b.length % wbuf.siz
    let w := if m ≠ 0 then w.wrBytes p (b.take m) else w
    if (b.drop m).length ≠ 0 then w.store p (b.drop m) else w
  else w

def outwrite (wbuf : Wbuf) (w : Writer) (p : Nat) (b : List Byte) : Writer :=
  let i := (w.parts p).cnt
  if i < wbuf.siz then
    if i < b.length then
      outwriteBlocks wbuf ((wrFlush wbuf w p).wrBytes p (b.take i)) p (b.drop i)
    else outwriteBlocks wbuf (w.store p b) p []
  else outwriteBlocks wbuf w p b

def putcPart (wbuf : Wbuf) (w : Writer) (p : Nat) (ch : Byte) : Writer :=
  let w := if (w.parts p).cnt = 0 then wrFlush wbuf w p else w
  w.store p [ch]

def beginseek (wbuf : Wbuf) (w : Writer) (p o : Nat) : Writer :=
  let o' := if partrelo ≤ p then 0 else o
  let cnt := wbuf.siz - o' % wbuf.siz
  w.setPart p
    { w.parts p with
      fd := o
      currpos := o
      cnt := cnt
      pbegin := wbuf.siz - cnt
      pnow := wbuf.siz - cnt }

theorem wrFlush_cnt (wbuf : Wbuf) (w : Writer) (p : Nat) :
    ((wrFlush wbuf w p).parts p).cnt = wbuf.siz := by
  simp only [wrFlush, setPart, update_self]

/-- The loop of `wr_sect`, `wr_relo` and `wr_name`: as many records as fit go to the
buffer, and if there are more it is flushed. -/
def wrRecords (wbuf : Wbuf) (p sz : Nat) (some_ : 0 < sz) (small : sz ≤ 256) (w : Writer)
    (records : List (List Byte)) : Writer :=
  if _more : records = [] then w
  else
    let i := min ((w.parts p).cnt / sz) records.length
    let w' := w.store p (records.take i).flatten
    if records.drop i = [] then w'
    else wrRecords wbuf p sz some_ small (wrFlush wbuf w' p) (records.drop i)
termination_by 2 * records.length + if (w.parts p).cnt < sz then 1 else 0
decreasing_by
  have bound := wbuf.le_siz
  have length := List.length_pos_iff.mpr _more
  have full : ¬((wrFlush wbuf w' p).parts p).cnt < sz := by
    rw [wrFlush_cnt]
    omega
  rw [if_neg full, List.length_drop]
  by_cases none : (w.parts p).cnt < sz
  · rw [if_pos none]
    exact Nat.lt_succ_of_le (Nat.mul_le_mul_left 2 (Nat.sub_le records.length i))
  · have one : 1 ≤ (w.parts p).cnt / sz := (Nat.le_div_iff_mul_le some_).mpr (by omega)
    have fewer : records.length - i < records.length :=
      Nat.sub_lt length (Nat.le_min.mpr ⟨one, length⟩)
    rw [if_neg none]
    exact Nat.add_lt_add_right (Nat.mul_lt_mul_of_pos_left fewer (by decide)) 0

/-! ## What a part has got -/

def flushed (w : Writer) (p : Nat) : Nat → Byte :=
  put w.file (w.parts p).currpos (w.pending p)

def tail (w : Writer) (p : Nat) : Nat :=
  (w.parts p).currpos + ((w.parts p).pnow - (w.parts p).pbegin)

end Writer

structure Buffered (wbuf : Wbuf) (fil : Fil) : Prop where
  fd : fil.fd = fil.currpos
  room : fil.cnt + fil.pnow = wbuf.siz
  order : fil.pbegin ≤ fil.pnow

/-- Part `p` has got the bytes `b`, and nothing else has changed. -/
structure Grows (wbuf : Wbuf) (w w' : Writer) (p : Nat) (b : List Byte) : Prop where
  buffered : Buffered wbuf (w'.parts p)
  flushed : w'.flushed p = put (w.flushed p) (w.tail p) b
  tail : w'.tail p = w.tail p + b.length
  later : (w.parts p).currpos ≤ (w'.parts p).currpos
  file : ∀ x, x < (w.parts p).currpos ∨ w'.tail p ≤ x → w'.file x = w.file x
  others : ∀ q, q ≠ p → w'.parts q = w.parts q
  sectionnr : w'.sectionnr = w.sectionnr
  offcnt : w'.offcnt = w.offcnt
  offset : ∀ s, s ≠ w.sectionnr ∨ partemit + sectcnt ≤ p → w'.offset s = w.offset s
  longer : w.size ≤ w'.size
  size : (w'.parts p).currpos = (w.parts p).currpos ∨ (w'.parts p).currpos ≤ w'.size

section Grows

variable {wbuf : Wbuf} {w w' w'' : Writer} {p : Nat} {b b' : List Byte}

theorem Grows.trans (first : Grows wbuf w w' p b) (second : Grows wbuf w' w'' p b') :
    Grows wbuf w w'' p (b ++ b') where
  buffered := second.buffered
  flushed := by rw [second.flushed, first.flushed, first.tail, put_append]
  tail := by rw [second.tail, first.tail, List.length_append, Nat.add_assoc]
  later := Nat.le_trans first.later second.later
  file := by
    have low := first.later
    have high := second.tail
    intro x outside
    rw [second.file x (by omega), first.file x (by omega)]
  others := fun q other => (second.others q other).trans (first.others q other)
  sectionnr := second.sectionnr.trans first.sectionnr
  offcnt := second.offcnt.trans first.offcnt
  offset := by
    intro s kept
    rw [second.offset s (by rw [first.sectionnr]; exact kept), first.offset s kept]
  longer := Nat.le_trans first.longer second.longer
  size := by
    have longer := second.longer
    rcases second.size with same | inside
    · rcases first.size with same' | inside'
      · exact Or.inl (same.trans same')
      · exact Or.inr (by omega)
    · exact Or.inr inside

theorem flushed_of_empty (empty : (w.parts p).pnow ≤ (w.parts p).pbegin) :
    w.flushed p = w.file := by
  rw [Writer.flushed, Writer.pending, Nat.sub_eq_zero_of_le empty, slice_zero, put_nil]

/-- Bytes that go to the file at once, from an empty buffer. -/
theorem grows_wrBytes (buffered : Buffered wbuf (w.parts p))
    (empty : (w.parts p).pnow ≤ (w.parts p).pbegin) (b : List Byte) :
    Grows wbuf w (w.wrBytes p b) p b := by
  have fil : (w.wrBytes p b).parts p = { w.parts p with
      fd := (w.parts p).fd + b.length, currpos := (w.parts p).currpos + b.length } := by
    simp only [Writer.wrBytes, update_self]
  have here : w.tail p = (w.parts p).currpos := by
    rw [Writer.tail, Nat.sub_eq_zero_of_le empty, Nat.add_zero]
  have there : (w.wrBytes p b).tail p = (w.parts p).currpos + b.length := by
    simp only [Writer.tail, fil, Nat.sub_eq_zero_of_le empty, Nat.add_zero]
  refine ⟨?_, ?_, by rw [there, here], ?_, ?_, ?_, rfl, rfl, ?_, ?_, ?_⟩
  · rw [fil]
    exact ⟨by rw [buffered.fd], buffered.room, buffered.order⟩
  · rw [flushed_of_empty (by rw [fil]; exact empty), flushed_of_empty empty, here, ← buffered.fd]
    rfl
  · rw [fil]
    exact Nat.le_add_right _ _
  · intro x outside
    rw [there] at outside
    simp only [Writer.wrBytes, buffered.fd]
    exact put_outside outside
  · intro q other
    simp only [Writer.wrBytes, update_of_ne other]
  · intro s kept
    simp only [Writer.wrBytes]
    split
    · exact update_of_ne (by omega) _ _
    · rfl
  · simp only [Writer.wrBytes]
    split
    · exact Nat.le_refl _
    · exact Nat.le_max_left _ _
  · rw [fil]
    simp only [Writer.wrBytes]
    split
    · rename_i none
      rw [List.isEmpty_iff.mp none]
      exact Or.inl rfl
    · rw [buffered.fd]
      exact Or.inr (Nat.le_max_right _ _)

theorem grows_restart {fil : Fil} (empty : (w.parts p).pnow ≤ (w.parts p).pbegin)
    (buffered : Buffered wbuf fil) (empty' : fil.pnow ≤ fil.pbegin)
    (same : fil.currpos = (w.parts p).currpos) : Grows wbuf w (w.setPart p fil) p [] := by
  have part : (w.setPart p fil).parts p = fil := by
    simp only [Writer.setPart, update_self]
  refine ⟨by rw [part]; exact buffered, ?_, ?_, ?_, fun _ _ => rfl, ?_, rfl, rfl, fun _ _ => rfl,
    Nat.le_refl _, ?_⟩
  · rw [put_nil, flushed_of_empty empty, flushed_of_empty (by rw [part]; exact empty')]
    rfl
  · simp only [Writer.tail, part, same, Nat.sub_eq_zero_of_le empty, Nat.sub_eq_zero_of_le empty',
      List.length_nil, Nat.add_zero]
  · rw [part, same]
  · intro q other
    simp only [Writer.setPart, update_of_ne other]
  · rw [part, same]
    exact Or.inl rfl

/-- A buffer that is written out makes the part the same as before. -/
theorem grows_pending (buffered : Buffered wbuf (w.parts p)) :
    let fil := (w.wrBytes p (w.pending p)).parts p
    Grows wbuf w ((w.wrBytes p (w.pending p)).setPart p
      { fil with cnt := wbuf.siz, pnow := 0, pbegin := 0 }) p [] := by
  intro fil
  have length : (w.pending p).length = (w.parts p).pnow - (w.parts p).pbegin := slice_length _ _ _
  have same : fil = { w.parts p with
      fd := (w.parts p).fd + (w.pending p).length
      currpos := (w.parts p).currpos + (w.pending p).length } := by
    simp only [fil, Writer.wrBytes, update_self]
  have part : ((w.wrBytes p (w.pending p)).setPart p
      { fil with cnt := wbuf.siz, pnow := 0, pbegin := 0 }).parts p =
      { fil with cnt := wbuf.siz, pnow := 0, pbegin := 0 } := by
    simp only [Writer.setPart, update_self]
  have there : ((w.wrBytes p (w.pending p)).setPart p
      { fil with cnt := wbuf.siz, pnow := 0, pbegin := 0 }).tail p = w.tail p := by
    rw [Writer.tail, part]
    simp only [same, length, Nat.sub_self, Nat.add_zero, Writer.tail]
  refine ⟨?_, ?_, by rw [there]; rfl, ?_, ?_, ?_, rfl, rfl, ?_, ?_, ?_⟩
  · rw [part, same]
    exact ⟨by simp only [buffered.fd], Nat.add_zero _, Nat.le_refl _⟩
  · rw [put_nil, flushed_of_empty (by rw [part]), Writer.flushed, ← buffered.fd]
    rfl
  · rw [part, same]
    exact Nat.le_add_right _ _
  · intro x outside
    rw [there, Writer.tail, ← length] at outside
    simp only [Writer.wrBytes, buffered.fd]
    exact put_outside outside
  · intro q other
    simp only [Writer.setPart, Writer.wrBytes, update_of_ne other]
  · intro s kept
    simp only [Writer.wrBytes]
    split
    · exact update_of_ne (by omega) _ _
    · rfl
  · simp only [Writer.setPart, Writer.wrBytes]
    split
    · exact Nat.le_refl _
    · exact Nat.le_max_left _ _
  · rw [part, same]
    simp only [Writer.setPart, Writer.wrBytes]
    split
    · rename_i none
      rw [List.isEmpty_iff.mp none]
      exact Or.inl rfl
    · rw [buffered.fd]
      exact Or.inr (Nat.le_max_right _ _)

theorem grows_flush (buffered : Buffered wbuf (w.parts p)) :
    Grows wbuf w (w.wrFlush wbuf p) p [] := by
  unfold Writer.wrFlush
  by_cases some_ : (w.parts p).pbegin < (w.parts p).pnow
  · simp only [some_]
    exact grows_pending buffered
  · simp only [some_]
    exact grows_restart (by omega) ⟨buffered.fd, Nat.add_zero _, Nat.le_refl _⟩ (Nat.le_refl _) rfl

theorem wrFlush_empty : ((w.wrFlush wbuf p).parts p).pnow ≤ ((w.wrFlush wbuf p).parts p).pbegin := by
  simp only [Writer.wrFlush, Writer.setPart, update_self, Nat.le_refl]

section

variable (buffered : Buffered wbuf (w.parts p))
include buffered

/-- Bytes that fit are stored in the buffer of their part. -/
theorem grows_store (fits : b.length ≤ (w.parts p).cnt) :
    Grows wbuf w (w.store p b) p b := by
  have order := buffered.order
  have room := buffered.room
  have part : (w.store p b).parts p = { w.parts p with
      cnt := (w.parts p).cnt - b.length
      pnow := (w.parts p).pnow + b.length
      pbuf := put (w.parts p).pbuf (w.parts p).pnow b } := by
    simp only [Writer.store, Writer.setPart, update_self]
  have more : (w.parts p).pnow + b.length - (w.parts p).pbegin =
      (w.parts p).pnow - (w.parts p).pbegin + b.length := by omega
  have after : (w.parts p).pbegin + ((w.parts p).pnow - (w.parts p).pbegin) =
      (w.parts p).pnow := by omega
  have bytes : (w.store p b).pending p = w.pending p ++ b := by
    have kept : slice (put (w.parts p).pbuf (w.parts p).pnow b) (w.parts p).pbegin
        ((w.parts p).pnow - (w.parts p).pbegin) = w.pending p := by
      apply slice_congr
      intro i _ bound
      exact put_outside (Or.inl (by omega))
    have new : slice (put (w.parts p).pbuf (w.parts p).pnow b) (w.parts p).pnow b.length = b :=
      put_holds _ _ _
    simp only [Writer.pending, part, more, slice_add, after, new]
    rw [kept, Writer.pending]
  refine ⟨?_, ?_, ?_, ?_, fun _ _ => rfl, ?_, rfl, rfl, fun _ _ => rfl, Nat.le_refl _, ?_⟩
  · rw [part]
    exact ⟨buffered.fd, by simp only; omega, by simp only; omega⟩
  · rw [Writer.flushed, Writer.flushed, bytes, part, ← put_append, Writer.tail, Writer.pending,
      slice_length]
    rfl
  · simp only [Writer.tail, part, more, Nat.add_assoc]
  · rw [part]
  · intro q other
    simp only [Writer.store, Writer.setPart, update_of_ne other]
  · rw [part]
    exact Or.inl rfl

/-- Whole buffers go past the buffer to the file. -/
theorem grows_blocks (ready : b = [] ∨ (w.parts p).cnt = 0 ∨ (w.parts p).cnt = wbuf.siz) :
    Grows wbuf w (w.outwriteBlocks wbuf p b) p b := by
  have large := wbuf.le_siz
  unfold Writer.outwriteBlocks
  by_cases edge : (w.parts p).cnt = 0 ∨ (w.parts p).cnt = wbuf.siz
  · rw [if_pos edge]
    have flush := grows_flush buffered
    have blocks : Grows wbuf w (if b.length - b.length % wbuf.siz ≠ 0 then
        (w.wrFlush wbuf p).wrBytes p (b.take (b.length - b.length % wbuf.siz))
        else w.wrFlush wbuf p) p (b.take (b.length - b.length % wbuf.siz)) := by
      split
      · exact flush.trans (grows_wrBytes flush.buffered wrFlush_empty _)
      · rename_i none
        rw [Decidable.not_not.mp none, List.take_zero]
        exact flush
    -- what is left is less than a buffer, and the buffer is empty
    have room : ((if b.length - b.length % wbuf.siz ≠ 0 then
        (w.wrFlush wbuf p).wrBytes p (b.take (b.length - b.length % wbuf.siz))
        else w.wrFlush wbuf p).parts p).cnt = wbuf.siz := by
      split
      · simp only [Writer.wrBytes, update_self, Writer.wrFlush_cnt]
      · exact Writer.wrFlush_cnt wbuf w p
    have left : (b.drop (b.length - b.length % wbuf.siz)).length = b.length % wbuf.siz := by
      rw [List.length_drop]
      have := Nat.mod_le b.length wbuf.siz
      omega
    have few := Nat.mod_lt b.length (show 0 < wbuf.siz by omega)
    simp only
    generalize h : (if b.length - b.length % wbuf.siz ≠ 0 then
        (w.wrFlush wbuf p).wrBytes p (b.take (b.length - b.length % wbuf.siz))
        else w.wrFlush wbuf p) = w₁ at blocks room
    split
    · have all := blocks.trans (grows_store blocks.buffered (by rw [left, room]; omega))
      rw [List.take_append_drop] at all
      exact all
    · rename_i none
      have nothing := List.length_eq_zero_iff.mp (Decidable.not_not.mp none)
      have whole := List.take_append_drop (b.length - b.length % wbuf.siz) b
      rw [nothing, List.append_nil] at whole
      rw [whole] at blocks
      exact blocks
  · rw [if_neg edge]
    rcases ready with rfl | ready
    · exact ⟨buffered, by rw [put_nil], rfl, Nat.le_refl _, fun _ _ => rfl, fun _ _ => rfl, rfl, rfl,
        fun _ _ => rfl, Nat.le_refl _, Or.inl rfl⟩
    · exact absurd ready edge

theorem grows_outwrite (b : List Byte) :
    Grows wbuf w (w.outwrite wbuf p b) p b := by
  have room := buffered.room
  unfold Writer.outwrite
  simp only
  split
  · split
    · have flush := grows_flush buffered
      have first := flush.trans (grows_wrBytes flush.buffered wrFlush_empty
        (b.take (w.parts p).cnt))
      have all := first.trans (grows_blocks first.buffered (b := b.drop (w.parts p).cnt) (by
        right
        right
        simp only [Writer.wrBytes, update_self, Writer.wrFlush_cnt]))
      rw [List.nil_append, List.take_append_drop] at all
      exact all
    · have stored := grows_store buffered (b := b) (by omega)
      have all := stored.trans (grows_blocks stored.buffered (Or.inl rfl))
      rw [List.append_nil] at all
      exact all
  · exact grows_blocks buffered (Or.inr (Or.inr (by omega)))

end

theorem flatten_length (sz : Nat) {records : List (List Byte)}
    (sizes : ∀ record ∈ records, record.length = sz) :
    records.flatten.length = records.length * sz := by
  rw [List.length_flatten, List.sum_eq_card_nsmul _ sz]
  · simp
  · intro length member
    obtain ⟨record, here, rfl⟩ := List.mem_map.mp member
    exact sizes record here

theorem fits_records {sz cnt : Nat} {records : List (List Byte)}
    (sizes : ∀ record ∈ records, record.length = sz) :
    (records.take (min (cnt / sz) records.length)).flatten.length ≤ cnt := by
  rw [flatten_length sz (fun record member => sizes record (List.mem_of_mem_take member)),
    List.length_take, Nat.min_assoc, Nat.min_self]
  exact Nat.le_trans (Nat.mul_le_mul_right sz (Nat.min_le_left _ _)) (Nat.div_mul_le_self _ _)

theorem grows_putc (buffered : Buffered wbuf (w.parts p)) (ch : Byte) :
    Grows wbuf w (w.putcPart wbuf p ch) p [ch] := by
  have large := wbuf.le_siz
  unfold Writer.putcPart
  split
  · have flush := grows_flush buffered
    exact flush.trans (grows_store flush.buffered (by
      rw [Writer.wrFlush_cnt, List.length_singleton]
      omega))
  · rename_i some_
    exact grows_store buffered (Nat.one_le_iff_ne_zero.mpr some_)

/-- The record loop gives the part all records, whatever is left of the buffer. -/
theorem grows_records (sz : Nat) (some_ : 0 < sz) (small : sz ≤ 256)
    (records : List (List Byte)) (sizes : ∀ record ∈ records, record.length = sz)
    (buffered : Buffered wbuf (w.parts p)) :
    Grows wbuf w (w.wrRecords wbuf p sz some_ small records) p records.flatten := by
  induction w, records using Writer.wrRecords.induct wbuf p sz some_ small with
  | case1 w =>
    rw [Writer.wrRecords, dif_pos rfl]
    exact ⟨buffered, by simp, rfl, Nat.le_refl _, fun _ _ => rfl, fun _ _ => rfl, rfl, rfl,
      fun _ _ => rfl, Nat.le_refl _, Or.inl rfl⟩
  | case2 w records more i last =>
    have stored := grows_store (b := (records.take i).flatten) buffered (fits_records sizes)
    have all : records.take i = records := by
      have whole := List.take_append_drop i records
      rw [last, List.append_nil] at whole
      exact whole
    rw [Writer.wrRecords, dif_neg more]
    rw [if_pos last, ← congrArg List.flatten all]
    exact stored
  | case3 w records more i w' rest ih =>
    have stored := grows_store (b := (records.take i).flatten) buffered (fits_records sizes)
    have flush := stored.trans (grows_flush stored.buffered)
    have later := flush.trans (ih (fun record member =>
      sizes record (List.mem_of_mem_drop member)) flush.buffered)
    rw [Writer.wrRecords, dif_neg more]
    rw [if_neg rest]
    rw [List.append_nil, ← List.flatten_append, List.take_append_drop] at later
    exact later

end Grows

end AckFormal.Object
