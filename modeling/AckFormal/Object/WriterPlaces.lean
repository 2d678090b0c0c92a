import AckFormal.Object.Writer

/-!
# The object writer puts bytes in their places

While a part stands at an area the file and the buffer of the part have what was sent
there.  The areas of the shared part that it does not stand at are in the file, and
`offset` says where they end.
-/

namespace AckFormal.Object

open Led (Byte)
open Function (update update_eq_self update_of_ne update_self)
open Lib

/-- Since it stood at `org`, part `p` has got `bytes`. -/
structure Sent (wbuf : Wbuf) (w : Writer) (p org : Nat) (bytes : List Byte) : Prop where
  buffered : Buffered wbuf (w.parts p)
  low : org ≤ (w.parts p).currpos
  tail : w.tail p = org + bytes.length
  holds : Holds (w.flushed p) org bytes
  size : (w.parts p).currpos = org ∨ (w.parts p).currpos ≤ w.size

/-- A part that has got nothing since it stood at `org`. -/
structure Fresh (wbuf : Wbuf) (fil : Fil) (org : Nat) : Prop where
  buffered : Buffered wbuf fil
  empty : fil.pnow ≤ fil.pbegin
  currpos : fil.currpos = org

section Parts

variable {wbuf : Wbuf} {w w' : Writer} {p q org : Nat} {b bytes : List Byte}

theorem Fresh.sent (fresh : Fresh wbuf (w.parts p) org) : Sent wbuf w p org [] where
  buffered := fresh.buffered
  low := by rw [fresh.currpos]
  tail := by rw [Writer.tail, fresh.currpos, Nat.sub_eq_zero_of_le fresh.empty]; rfl
  holds := Holds.nil _ _
  size := Or.inl fresh.currpos

theorem Sent.grows (sent : Sent wbuf w p org bytes) (grows : Grows wbuf w w' p b) :
    Sent wbuf w' p org (bytes ++ b) where
  buffered := grows.buffered
  low := Nat.le_trans sent.low grows.later
  tail := by rw [grows.tail, sent.tail, List.length_append, Nat.add_assoc]
  holds := by
    rw [grows.flushed, sent.tail]
    exact sent.holds.put_after b
  size := by
    have longer := grows.longer
    rcases grows.size with same | inside
    · rw [same]
      rcases sent.size with same' | inside'
      · exact Or.inl same'
      · exact Or.inr (by omega)
    · exact Or.inr inside

/-- Other parts do not see what does not touch their bytes. -/
theorem Sent.frame (sent : Sent wbuf w q org bytes) (fil : w'.parts q = w.parts q)
    (file : ∀ x, org ≤ x → x < org + bytes.length → w'.file x = w.file x)
    (longer : w.size ≤ w'.size) : Sent wbuf w' q org bytes where
  buffered := by rw [fil]; exact sent.buffered
  low := by rw [fil]; exact sent.low
  tail := by
    have tail := sent.tail
    simp only [Writer.tail] at tail ⊢
    rw [fil]
    exact tail
  holds := by
    apply sent.holds.congr
    intro x low high
    simp only [Writer.flushed, Writer.pending, fil, put]
    rw [file x low high]
  size := by
    rw [fil]
    rcases sent.size with same | inside
    · exact Or.inl same
    · exact Or.inr (Nat.le_trans inside longer)

section

variable (sent : Sent wbuf w p org bytes) (empty : (w.parts p).pnow ≤ (w.parts p).pbegin)
include sent empty

theorem Sent.stored : Holds w.file org bytes := by
  have holds := sent.holds
  rw [flushed_of_empty empty] at holds
  exact holds

theorem Sent.stored_size :
    bytes = [] ∨ org + bytes.length ≤ w.size := by
  have tail := sent.tail
  rw [Writer.tail, Nat.sub_eq_zero_of_le empty, Nat.add_zero] at tail
  rcases sent.size with same | inside
  · left
    exact List.length_eq_zero_iff.mp (by omega)
  · right
    omega

end

theorem wrFlush_others (other : q ≠ p) : (w.wrFlush wbuf p).parts q = w.parts q := by
  simp only [Writer.wrFlush, Writer.setPart, update_of_ne other]
  split
  · simp only [Writer.wrBytes, update_of_ne other]
  · rfl

theorem fresh_beginseek (wbuf : Wbuf) (w : Writer) (p o : Nat) :
    Fresh wbuf ((w.beginseek wbuf p o).parts p) o := by
  simp only [Writer.beginseek, Writer.setPart, update_self]
  exact ⟨⟨rfl, by simp only; omega, Nat.le_refl _⟩, Nat.le_refl _, rfl⟩

theorem beginseek_others (wbuf : Wbuf) (w : Writer) {p o q : Nat} (other : q ≠ p) :
    (w.beginseek wbuf p o).parts q = w.parts q := by
  simp only [Writer.beginseek, Writer.setPart, update_of_ne other]

end Parts

/-! ## All areas -/

/-- Different areas do not share bytes if what is in them is no longer than `length`. -/
def Apart (head : Outhead) (sects : List Outsect) (length : Area → Nat) : Prop :=
  ∀ a b : Area, a.Live sects → b.Live sects → a ≠ b → ∀ x,
    a.start head sects ≤ x → x < a.start head sects + length a →
    b.start head sects ≤ x → ¬x < b.start head sects + length b

structure Stored (wbuf : Wbuf) (head : Outhead) (sects : List Outsect) (bytes : Area → List Byte)
    (held : Nat) (w : Writer) : Prop where
  attached : ∀ a : Area, a.Live sects → a.Attached held →
    Sent wbuf w a.part (a.start head sects) (bytes a)
  parked : ∀ a : Area, a.Live sects → ¬a.Attached held →
    Holds w.file (a.start head sects) (bytes a) ∧
      (bytes a = [] ∨ a.start head sects + (bytes a).length ≤ w.size)

section Areas

variable {wbuf : Wbuf} {head : Outhead} {sects : List Outsect} {bytes : Area → List Byte}
  {held : Nat} {w w' : Writer} {length : Area → Nat}

theorem getsect_low {s : Nat} (low : s < sectcnt - 1) : getsect s = s := by
  rw [getsect, if_neg (by omega), partemit, Nat.zero_add]

theorem getsect_high {s : Nat} (high : sectcnt - 1 ≤ s) : getsect s = 2 := by
  rw [getsect, if_pos high]
  rfl

/-- Two areas that are attached do not share a part. -/
theorem part_unique (shared : sectcnt - 1 ≤ held) {a b : Area} (attachedA : a.Attached held)
    (attachedB : b.Attached held) (same : a.part = b.part) : a = b := by
  have bound : ∀ s, getsect s ≤ 2 := by
    intro s
    by_cases low : s < sectcnt - 1
    · rw [getsect_low low]
      exact Nat.le_of_lt low
    · rw [getsect_high (by omega)]
  cases a with
  | sect s =>
    cases b with
    | sect t =>
      simp only [Area.part, partemit, Nat.zero_add] at same
      congr 1
      rcases attachedA with lowS | rfl
      · rcases attachedB with lowT | rfl
        · rw [getsect_low lowS, getsect_low lowT] at same
          exact same
        · rw [getsect_low lowS, getsect_high shared] at same
          simp only [sectcnt] at lowS
          omega
      · rcases attachedB with lowT | rfl
        · rw [getsect_low lowT, getsect_high shared] at same
          simp only [sectcnt] at lowT
          omega
        · rfl
    | _ =>
      have := bound s
      simp only [Area.part, partrelo, partname, partchar, sectcnt] at same
      omega
  | _ =>
    cases b with
    | sect t =>
      have := bound t
      simp only [Area.part, partrelo, partname, partchar, sectcnt] at same
      omega
    | _ =>
      simp only [Area.part, partname, partchar] at same ⊢
      try omega

variable (stored : Stored wbuf head sects bytes held w) (shared : sectcnt - 1 ≤ held)
include stored shared

/-- A part that grows keeps what is in the areas of the others. -/
theorem Stored.grows {a : Area} (live : a.Live sects) (attached : a.Attached held) {b : List Byte}
    (grows : Grows wbuf w w' a.part b) (apart : Apart head sects length)
    (fits : ∀ c : Area, c.Live sects →
      (update bytes a (bytes a ++ b) c).length ≤ length c) :
    Stored wbuf head sects (update bytes a (bytes a ++ b)) held w' := by
  have sent := stored.attached a live attached
  have sent' := sent.grows grows
  have fitsA := fits a live
  rw [update_self] at fitsA
  -- only bytes of this area change
  have file : ∀ c : Area, c.Live sects → c ≠ a → ∀ x, c.start head sects ≤ x →
      x < c.start head sects + (bytes c).length → w'.file x = w.file x := by
    intro c liveC other x low high
    have fitsC := fits c liveC
    rw [update_of_ne other] at fitsC
    apply grows.file
    by_contra inside
    have tail := sent'.tail
    have lowA := sent.low
    exact apart c a liveC live other x low (by omega) (by omega) (by omega)
  constructor
  · intro c liveC attachedC
    by_cases here : c = a
    · subst here
      rw [update_self]
      exact sent'
    · rw [update_of_ne here]
      have otherPart : c.part ≠ a.part :=
        fun same => here (part_unique shared attachedC attached same)
      exact (stored.attached c liveC attachedC).frame (grows.others _ otherPart)
        (file c liveC here) grows.longer
  · intro c liveC parked
    have here : c ≠ a := by
      rintro rfl
      exact parked attached
    rw [update_of_ne here]
    obtain ⟨holds, size⟩ := stored.parked c liveC parked
    refine ⟨holds.congr (file c liveC here), ?_⟩
    have longer := grows.longer
    rcases size with none | inside
    · exact Or.inl none
    · exact Or.inr (by omega)

/-- The shared part, once it is empty, may be moved to another section. -/
theorem Stored.restart {t : Nat} (high : sectcnt - 1 ≤ t)
    (live : (Area.sect t).Live sects) (other : t ≠ held)
    (empty : (w.parts 2).pnow ≤ (w.parts 2).pbegin)
    (fresh : Fresh wbuf (w'.parts 2)
      ((Area.sect t).start head sects + (bytes (.sect t)).length))
    (others : ∀ q, q ≠ 2 → w'.parts q = w.parts q) (file : w'.file = w.file)
    (size : w'.size = w.size) : Stored wbuf head sects bytes t w' := by
  have notLow : ¬t < sectcnt - 1 := by omega
  have part : (Area.sect t).part = 2 := by
    rw [Area.part, getsect_high high]
    rfl
  have parkedT : ¬(Area.sect t).Attached held := by
    rintro (low | same)
    · exact notLow low
    · exact other same
  constructor
  · intro c liveC attachedC
    by_cases here : c = .sect t
    · subst here
      obtain ⟨holds, length⟩ := stored.parked _ liveC parkedT
      rw [part]
      refine ⟨fresh.buffered, by rw [fresh.currpos]; exact Nat.le_add_right _ _, ?_, ?_, ?_⟩
      · rw [Writer.tail, fresh.currpos, Nat.sub_eq_zero_of_le fresh.empty, Nat.add_zero]
      · rw [flushed_of_empty fresh.empty, file]
        exact holds
      · rw [fresh.currpos, size]
        rcases length with none | inside
        · left
          rw [none]
          rfl
        · exact Or.inr inside
    · have otherPart : c.part ≠ 2 := by
        intro same
        exact here (part_unique high attachedC (Or.inr rfl) (same.trans part.symm))
      have attachedOld : c.Attached held := by
        cases c with
        | sect s =>
          rcases attachedC with low | rfl
          · exact Or.inl low
          · exact absurd rfl here
        | _ => trivial
      exact (stored.attached c liveC attachedOld).frame (others _ otherPart)
        (fun x _ _ => by rw [file]) (Nat.le_of_eq size.symm)
  · intro c liveC parkedC
    rw [file, size]
    by_cases here : c.Attached held
    · -- this is the section that the part stood at
      have partC : c.part = 2 := by
        cases c with
        | sect s =>
          rcases here with low | rfl
          · exact absurd (Or.inl low) parkedC
          · rw [Area.part, getsect_high shared]
            rfl
        | _ => exact absurd trivial parkedC
      have sent := stored.attached c liveC here
      rw [partC] at sent
      exact ⟨sent.stored empty, sent.stored_size empty⟩
    · exact stored.parked c liveC here

end Areas

/-! ## One call -/

structure Settled (wbuf : Wbuf) (head : Outhead) (sects : List Outsect) (t : Traffic) (held : Nat)
    (w : Writer) : Prop where
  stored : Stored wbuf head sects (Area.bytes head sects t) held w
  offset : ∀ s, sectcnt - 1 ≤ s → s < sects.length → s ≠ held →
    w.offset s = (Area.sect s).start head sects + (Area.bytes head sects t (.sect s)).length
  sectionnr : w.sectionnr = t.selected
  selected : (Area.sect t.selected).Live sects
  shared : sectcnt - 1 ≤ held
  stands : held = sectcnt - 1 ∨ held < sects.length
  idle : ∀ p, p ≠ 0 → p < sectcnt → sects.length ≤ p → (w.parts p).pnow ≤ (w.parts p).pbegin

section Calls

variable {wbuf : Wbuf} {head : Outhead} {sects : List Outsect} {t : Traffic} {held : Nat}
  {w w' : Writer} {length : Area → Nat}

theorem bytes_add (t : Traffic) (a : Area) (b : List Byte) :
    Area.bytes head sects (t.add a b) =
      update (Area.bytes head sects t) a (Area.bytes head sects t a ++ b) := by
  funext c
  by_cases here : c = a
  · subst here
    simp only [Area.bytes, Traffic.add, update_self, List.append_assoc]
  · simp only [Area.bytes, Traffic.add, update_of_ne here]

variable (settled : Settled wbuf head sects t held w)
include settled

/-- A call adds its bytes to one area. -/
theorem Settled.add {a : Area}
    (live : a.Live sects) (attached : a.Attached held) {b : List Byte}
    (grows : Grows wbuf w w' a.part b)
    (right : partemit + sectcnt ≤ a.part ∨ t.selected < sectcnt - 1 ∨ t.selected = held)
    (apart : Apart head sects length)
    (fits : ∀ c : Area, c.Live sects → (Area.bytes head sects (t.add a b) c).length ≤ length c) :
    Settled wbuf head sects (t.add a b) held w' := by
  rw [bytes_add] at fits
  refine ⟨?_, ?_, grows.sectionnr.trans settled.sectionnr, settled.selected, settled.shared,
    settled.stands, ?_⟩
  · rw [bytes_add]
    exact settled.stored.grows settled.shared live attached grows apart fits
  · intro s high few other
    have here : Area.sect s ≠ a := by
      rintro rfl
      rcases attached with low | same
      · omega
      · exact other same
    rw [bytes_add, update_of_ne here, grows.offset s _]
    · exact settled.offset s high few other
    · rw [settled.sectionnr]
      omega
  · intro p nonzero low absent
    have otherPart : p ≠ a.part := by
      rintro rfl
      cases a with
      | sect s =>
        simp only [Area.part, partemit, Nat.zero_add] at nonzero low absent
        by_cases lowS : s < sectcnt - 1
        · rw [getsect_low lowS] at nonzero absent
          rcases live with zero | few
          · exact nonzero zero
          · omega
        · rw [getsect_high (by omega)] at absent
          rcases live with zero | few
          · simp only [sectcnt] at lowS
            omega
          · simp only [sectcnt] at lowS
            omega
      | _ =>
        simp only [Area.part, partrelo, partname, partchar] at low
        omega
    rw [grows.others p otherPart]
    exact settled.idle p nonzero low absent

/-- `wr_outsect` to a section, leaving none of the shared part. -/
theorem Settled.select {sectno : Nat}
    (valid : sectno < sects.length) :
    Settled wbuf head sects { t with selected := sectno } held { w with sectionnr := sectno } where
  stored := ⟨fun a live attached => (settled.stored.attached a live attached).frame rfl
    (fun _ _ _ => rfl) (Nat.le_refl _), settled.stored.parked⟩
  offset := settled.offset
  sectionnr := rfl
  selected := Or.inr valid
  shared := settled.shared
  stands := settled.stands
  idle := settled.idle

/-- `wr_outsect` from one section of the shared part to another. -/
theorem Settled.switch {sectno : Nat}
    (valid : sectno < sects.length) (here : t.selected = held) (other : sectno ≠ held)
    (high : sectcnt - 1 ≤ sectno) (apart : Apart head sects length)
    (fits : ∀ c : Area, c.Live sects → (Area.bytes head sects t c).length ≤ length c) :
    Settled wbuf head sects { t with selected := sectno } sectno (w.wrOutsect wbuf sectno) := by
  have shared := settled.shared
  have sectionnr := settled.sectionnr
  have part : partemit + getsect w.sectionnr = 2 := by
    rw [sectionnr, here, getsect_high shared]
    rfl
  have partHeld : (Area.sect held).part = 2 := by
    rw [Area.part, getsect_high shared]
    rfl
  have liveHeld : (Area.sect held).Live sects := by
    rw [← here]
    exact settled.selected
  have sent := settled.stored.attached _ liveHeld (Or.inr rfl)
  rw [partHeld] at sent
  have grows := grows_pending sent.buffered
  rw [← partHeld] at grows
  -- first the buffer goes to the file, and then the part moves
  have written := settled.stored.grows shared liveHeld (Or.inr rfl) grows apart (by
    rw [List.append_nil, update_eq_self]
    exact fits)
  rw [List.append_nil, update_eq_self, partHeld] at written
  have offset : (w.wrBytes 2 (w.pending 2)).offset sectno =
      (Area.sect sectno).start head sects + (Area.bytes head sects t (.sect sectno)).length := by
    rw [← settled.offset sectno high valid other]
    simp only [Writer.wrBytes, sectionnr, here]
    exact update_of_ne other _ _
  have condition : sectno ≠ w.sectionnr ∧ sectcnt - 1 ≤ sectno ∧ sectcnt - 1 ≤ w.sectionnr := by
    rw [sectionnr, here]
    exact ⟨other, high, shared⟩
  unfold Writer.wrOutsect
  rw [part]
  simp only
  rw [if_pos condition]
  have newPart : (if (w.wrBytes 2 (w.pending 2)).offset sectno ≠
      ((w.wrBytes 2 (w.pending 2)).parts 2).currpos then
        (w.wrBytes 2 (w.pending 2)).offset sectno
      else ((w.wrBytes 2 (w.pending 2)).parts 2).fd) =
      (w.wrBytes 2 (w.pending 2)).offset sectno := by
    split
    · rfl
    · rename_i same
      rw [Decidable.not_not.mp same]
      simp only [Writer.wrBytes, update_self, sent.buffered.fd]
  rw [newPart]
  refine ⟨?_, ?_, rfl, Or.inr valid, high, Or.inr valid, ?_⟩
  · apply written.restart shared high (Or.inr valid) other
    · simp only [Writer.setPart, update_self, Nat.le_refl]
    · simp only [Writer.setPart, update_self]
      exact ⟨⟨rfl, by simp only; omega, Nat.le_refl _⟩, Nat.le_refl _, offset⟩
    · intro q different
      simp only [Writer.setPart, update_of_ne different]
    · rfl
    · rfl
  · intro s highS few otherS
    simp only [Writer.setPart, Writer.wrBytes, sectcnt, partemit, sectionnr, here]
    by_cases left : s = held
    · subst left
      have tail := sent.tail
      have length : (w.pending 2).length = (w.parts 2).pnow - (w.parts 2).pbegin :=
        slice_length _ _ _
      rw [Writer.tail, ← length] at tail
      simp only [Nat.lt_add_one, if_true, update_self]
      exact tail
    · exact (update_of_ne left _ _).trans (settled.offset s highS few left)
  · intro p nonzero low absent
    have different : p ≠ 2 := by
      rintro rfl
      omega
    simp only [Writer.setPart, Writer.wrBytes, update_of_ne different]
    exact settled.idle p nonzero low absent

def Call.Valid (sects : List Outsect) : Call → Prop
  | .outsect sectno => sectno < sects.length
  | _ => True

/-- One call, if it finds the shared part where it has to be. -/
theorem Settled.call {c : Call} {held' : Nat}
    (valid : c.Valid sects)
    (right : track (some (t.selected, held)) c = some ((t.call c).selected, held'))
    (apart : Apart head sects length)
    (fits : ∀ a : Area, a.Live sects → (Area.bytes head sects (t.call c) a).length ≤ length a) :
    Settled wbuf head sects (t.call c) held' (w.call wbuf c) := by
  have emits : (t.selected < sectcnt - 1 ∨ t.selected = held) → held' = held →
      ∀ (b : List Byte) (w' : Writer),
      Grows wbuf w w' (partemit + getsect w.sectionnr) b →
      (∀ a : Area, a.Live sects →
        (Area.bytes head sects (t.add (.sect t.selected) b) a).length ≤ length a) →
      Settled wbuf head sects (t.add (.sect t.selected) b) held' w' := by
    intro stands same b w' grows fits
    rw [settled.sectionnr] at grows
    rw [same]
    exact settled.add settled.selected stands grows (Or.inr stands) apart fits
  have buffered : (t.selected < sectcnt - 1 ∨ t.selected = held) →
      Buffered wbuf (w.parts (partemit + getsect w.sectionnr)) := by
    intro stands
    rw [settled.sectionnr]
    exact (settled.stored.attached _ settled.selected stands).buffered
  cases c with
  | outsect sectno =>
    simp only [track, Option.bind_some] at right
    split at right
    · rename_i direct
      split at right
      · rename_i stands
        cases right
        exact settled.switch valid stands (by rw [← stands]; exact direct.1) direct.2.1 apart fits
      · cases right
    · rename_i direct
      cases right
      have same : w.wrOutsect wbuf sectno = { w with sectionnr := sectno } := by
        unfold Writer.wrOutsect
        rw [if_neg (by rw [settled.sectionnr]; exact direct)]
      simp only [Writer.call, same]
      exact settled.select valid
  | emit b =>
    simp only [track, Option.bind_some] at right
    split at right
    · rename_i stands
      cases right
      exact emits stands rfl b _ (grows_outwrite (buffered stands) b) fits
    · cases right
  | putc ch =>
    simp only [track, Option.bind_some] at right
    split at right
    · rename_i stands
      cases right
      exact emits stands rfl [ch] _ (grows_putc (buffered stands) ch) fits
    · cases right
  | relo relos =>
    cases right
    have sent := settled.stored.attached .relo trivial trivial
    exact settled.add (a := .relo) trivial trivial (grows_records _ _ _ _ (by
      intro record member
      obtain ⟨relo, _, rfl⟩ := List.mem_map.mp member
      rfl) sent.buffered) (Or.inl (Nat.le_refl _)) apart fits
  | name names =>
    cases right
    have sent := settled.stored.attached .name trivial trivial
    exact settled.add (a := .name) trivial trivial (grows_records _ _ _ _ (by
      intro record member
      obtain ⟨name, _, rfl⟩ := List.mem_map.mp member
      rfl) sent.buffered) (Or.inl (by decide)) apart fits
  | string b =>
    cases right
    have sent := settled.stored.attached .char trivial trivial
    exact settled.add (a := .char) trivial trivial (grows_outwrite sent.buffered b)
      (Or.inl (by decide)) apart fits

end Calls

/-! ## All calls -/

theorem track_none (calls : List Call) : calls.foldl track none = none := by
  induction calls with
  | nil => rfl
  | cons c rest ih => exact ih

theorem track_selected {selected held : Nat} {sent : Area → List Byte} {c : Call}
    {state : Nat × Nat} (right : track (some (selected, held)) c = some state) :
    state.1 = (Traffic.call ⟨selected, sent⟩ c).selected := by
  cases c with
  | outsect sectno =>
    simp only [track, Option.bind_some] at right
    split at right
    · split at right
      · cases right
        rfl
      · cases right
    · cases right
      rfl
  | emit _ | putc _ =>
    simp only [track, Option.bind_some] at right
    split at right
    · cases right
      rfl
    · cases right
  | _ =>
    cases right
    rfl

theorem call_sent_le (t : Traffic) (c : Call) (a : Area) :
    (t.sent a).length ≤ ((t.call c).sent a).length := by
  have added : ∀ (area : Area) (b : List Byte),
      (t.sent a).length ≤ ((t.add area b).sent a).length := by
    intro area b
    by_cases here : a = area
    · subst here
      simp only [Traffic.add, update_self, List.length_append]
      omega
    · simp only [Traffic.add, update_of_ne here, Nat.le_refl]
  cases c with
  | outsect _ => exact Nat.le_refl _
  | _ => exact added _ _

theorem calls_sent_le (calls : List Call) (t : Traffic) (a : Area) :
    (t.sent a).length ≤ ((calls.foldl Traffic.call t).sent a).length := by
  induction calls generalizing t with
  | nil => exact Nat.le_refl _
  | cons c rest ih => exact Nat.le_trans (call_sent_le t c a) (ih (t.call c))

section Run

variable {wbuf : Wbuf} {head : Outhead} {sects : List Outsect} {t : Traffic} {held : Nat}
  {w : Writer} {length : Area → Nat}

theorem Settled.calls {calls : List Call} (settled : Settled wbuf head sects t held w)
    (valid : ∀ c ∈ calls, c.Valid sects)
    (right : (calls.foldl track (some (t.selected, held))).isSome = true)
    (apart : Apart head sects length)
    (fits : ∀ a : Area, a.Live sects →
      (Area.bytes head sects (calls.foldl Traffic.call t) a).length ≤ length a) :
    ∃ held', Settled wbuf head sects (calls.foldl Traffic.call t) held'
      (calls.foldl (Writer.call wbuf) w) := by
  induction calls generalizing t held w with
  | nil => exact ⟨held, settled⟩
  | cons c rest ih =>
    rw [List.foldl_cons] at right
    cases stepped : track (some (t.selected, held)) c with
    | none =>
      rw [stepped, track_none] at right
      cases right
    | some state =>
      obtain ⟨selected, held'⟩ := state
      have same : selected = (t.call c).selected := track_selected stepped
      subst same
      rw [stepped] at right
      apply ih _ (fun d member => valid d (List.mem_cons_of_mem c member)) right fits
      apply settled.call (valid c List.mem_cons_self) stepped apart
      intro a live
      have later := calls_sent_le rest (t.call c) a
      have final := fits a live
      rw [List.foldl_cons] at final
      simp only [Area.bytes, List.length_append] at final ⊢
      omega

structure Placed (wbuf : Wbuf) (w : Writer) (sects : List Outsect) (w' : Writer) : Prop where
  offcnt : w'.offcnt = sects.length
  offset : ∀ s, s < sects.length → w'.offset s = (sects.getD s default).foff.toNat
  own : ∀ p, p ≠ 0 → p < sectcnt → p < sects.length →
    Fresh wbuf (w'.parts p) (sects.getD p default).foff.toNat
  others : ∀ p, p = 0 ∨ sectcnt ≤ p ∨ sects.length ≤ p → w'.parts p = w.parts p
  file : w'.file = w.file
  size : w'.size = w.size
  sectionnr : w'.sectionnr = w.sectionnr

/-- By induction on the sections that the loop has placed. -/
theorem placed_sects (wbuf : Wbuf) (w : Writer) (first : w.offcnt = 0) (sects : List Outsect) :
    Placed wbuf w sects (sects.foldl (Writer.placeSect wbuf) w) := by
  induction sects using List.reverseRecOn with
  | nil => exact ⟨first, by simp, by simp, fun _ _ => rfl, rfl, rfl, rfl⟩
  | append_singleton before sect ih =>
    rw [List.foldl_append, List.foldl_cons, List.foldl_nil]
    generalize before.foldl (Writer.placeSect wbuf) w = w₁ at ih
    have old : ∀ s, s < before.length → (before ++ [sect]).getD s default =
        before.getD s default := by
      intro s low
      simp only [List.getD_eq_getElem?_getD, List.getElem?_append_left low]
    have new : (before ++ [sect]).getD before.length default = sect := by simp
    have parts : ∀ p, p ≠ before.length ∨ ¬(1 ≤ p ∧ p < sectcnt) →
        (w₁.placeSect wbuf sect).parts p = w₁.parts p := by
      intro p kept
      simp only [Writer.placeSect, ih.offcnt]
      split
      · apply beginseek_others
        simp only [partemit, Nat.zero_add]
        rintro rfl
        rcases kept with other | outside
        · exact other rfl
        · rename_i inside
          exact outside inside
      · rfl
    have file : (w₁.placeSect wbuf sect).file = w₁.file := by
      simp only [Writer.placeSect]
      split <;> rfl
    have size : (w₁.placeSect wbuf sect).size = w₁.size := by
      simp only [Writer.placeSect]
      split <;> rfl
    have sectionnr : (w₁.placeSect wbuf sect).sectionnr = w₁.sectionnr := by
      simp only [Writer.placeSect]
      split <;> rfl
    have offset : (w₁.placeSect wbuf sect).offset =
        update w₁.offset before.length sect.foff.toNat := by
      rw [← ih.offcnt]
      simp only [Writer.placeSect]
      split <;> rfl
    refine ⟨?_, ?_, ?_, ?_, file.trans ih.file, size.trans ih.size, sectionnr.trans ih.sectionnr⟩
    · simp only [Writer.placeSect, List.length_append]
      split
      · exact congrArg (· + 1) ih.offcnt
      · exact congrArg (· + 1) ih.offcnt
    · intro s bound
      rw [List.length_append, List.length_singleton] at bound
      rw [offset]
      by_cases here : s = before.length
      · rw [here, update_self, new]
      · rw [update_of_ne here, ih.offset s (by omega), old s (by omega)]
    · intro p nonzero low bound
      rw [List.length_append, List.length_singleton] at bound
      by_cases here : p = before.length
      · rw [here, new]
        have inside : 1 ≤ before.length ∧ before.length < sectcnt := by omega
        simp only [Writer.placeSect, ih.offcnt, inside, partemit, Nat.zero_add]
        exact fresh_beginseek _ _ _ _
      · rw [parts p (Or.inl here), old p (by omega)]
        exact ih.own p nonzero low (by omega)
    · intro p kept
      rw [List.length_append, List.length_singleton] at kept
      rw [parts p (by omega)]
      exact ih.others p (by omega)

theorem front_nil {a : Area} (other : a ≠ .sect 0) : a.front head sects = [] := by
  cases a with
  | sect s =>
    cases s with
    | zero => exact absurd rfl other
    | succ s => rfl
  | _ => rfl

structure Sought (wbuf : Wbuf) (head : Outhead) (w : Writer) : Prop where
  emit : Fresh wbuf (w.parts partemit) 0
  relo : Fresh wbuf (w.parts partrelo) head.offRelo
  name : Fresh wbuf (w.parts partname) head.offName
  char : Fresh wbuf (w.parts partchar) head.offChar
  others : ∀ p, p ≠ 0 → p < sectcnt → w.parts p = ⟨0, 0, 0, 0, 0, fun _ => 0⟩
  sectionnr : w.sectionnr = 0
  offcnt : w.offcnt = 0

theorem exists_sought (wbuf : Wbuf) (head : Outhead) :
    ∃ w, Sought wbuf head w ∧
      Writer.wrOhead wbuf Writer.wrOpen head = w.outwrite wbuf partemit head.bytes := by
  refine ⟨(((Writer.wrOpen.beginseek wbuf partemit 0).beginseek wbuf partrelo
      head.offRelo).beginseek wbuf partname head.offName).beginseek wbuf partchar head.offChar,
    ⟨?_, ?_, ?_, ?_, ?_, rfl, rfl⟩, rfl⟩
  · rw [beginseek_others _ _ (by decide), beginseek_others _ _ (by decide),
      beginseek_others _ _ (by decide)]
    exact fresh_beginseek _ _ _ _
  · rw [beginseek_others _ _ (by decide), beginseek_others _ _ (by decide)]
    exact fresh_beginseek _ _ _ _
  · rw [beginseek_others _ _ (by decide)]
    exact fresh_beginseek _ _ _ _
  · exact fresh_beginseek _ _ _ _
  · intro p nonzero low
    simp only [sectcnt] at low
    rw [beginseek_others, beginseek_others, beginseek_others, beginseek_others]
    · rfl
    · exact nonzero
    all_goals
      simp only [partchar, partname, partrelo, sectcnt]
      omega

/-- The seeks leave the part of every area but the first at the start of that area. -/
theorem fresh_area {w₀ w₁ w₂ w₃ : Writer} (sought : Sought wbuf head w₀)
    (placed : Placed wbuf w₁ sects w₂) (later : ∀ p, p ≠ 0 → w₃.parts p = w₂.parts p)
    (high : ∀ p, sectcnt ≤ p → w₃.parts p = w₀.parts p) {a : Area} (first : a ≠ .sect 0)
    (live : a.Live sects) (attached : a.Attached (sectcnt - 1)) :
    Fresh wbuf (w₃.parts a.part) (a.start head sects) := by
  cases a with
  | sect s =>
    have nonzero : s ≠ 0 := by
      rintro rfl
      exact first rfl
    have few : s < sects.length := live.resolve_left nonzero
    have own : s < sectcnt ∧ getsect s = s := by
      rcases attached with low | rfl
      · exact ⟨by omega, getsect_low low⟩
      · exact ⟨by decide, rfl⟩
    rw [Area.part, own.2, partemit, Nat.zero_add, later s nonzero]
    obtain ⟨s, rfl⟩ := Nat.exists_eq_succ_of_ne_zero nonzero
    exact placed.own _ nonzero own.1 few
  | relo =>
    rw [Area.part, high _ (by decide)]
    exact sought.relo
  | name =>
    rw [Area.part, high _ (by decide)]
    exact sought.name
  | char =>
    rw [Area.part, high _ (by decide)]
    exact sought.char

/-- After `wr_ohead` and `wr_sect` the header and the section table have been sent. -/
theorem settled_start (wbuf : Wbuf) (head : Outhead) (sects : List Outsect) :
    Settled wbuf head sects Traffic.start (sectcnt - 1)
      (Writer.wrSect wbuf (Writer.wrOhead wbuf Writer.wrOpen head) sects) := by
  -- the four steps: seeks, header, places of the sections, table
  obtain ⟨w₀, sought, ohead⟩ := exists_sought wbuf head
  have header := grows_outwrite sought.emit.buffered head.bytes
  have placed := placed_sects wbuf (w₀.outwrite wbuf partemit head.bytes)
    (header.offcnt.trans sought.offcnt) sects
  rw [Writer.wrSect, ohead]
  generalize sects.foldl (Writer.placeSect wbuf) (w₀.outwrite wbuf partemit head.bytes) = w₁
    at placed
  have sentHead : Sent wbuf w₁ partemit 0 head.bytes := by
    have sent := sought.emit.sent.grows header
    exact sent.frame (placed.others _ (Or.inl rfl)) (fun _ _ _ => by rw [placed.file])
      (Nat.le_of_eq placed.size.symm)
  have table := grows_records szSect (by decide) (by decide) (sects.map Outsect.bytes) (by
    intro record member
    obtain ⟨sect, _, rfl⟩ := List.mem_map.mp member
    rfl) sentHead.buffered
  have sentTable := sentHead.grows table
  generalize Writer.wrRecords wbuf partemit szSect _ _ w₁ (sects.map Outsect.bytes) = w₂
    at table sentTable
  have later : ∀ p, p ≠ 0 → w₂.parts p = w₁.parts p := fun p nonzero => table.others p nonzero
  have high : ∀ p, sectcnt ≤ p → w₂.parts p = w₀.parts p := by
    intro p high
    have nonzero : p ≠ 0 := by
      rintro rfl
      exact absurd high (by decide)
    rw [later p nonzero, placed.others p (Or.inr (Or.inl high)), header.others p nonzero]
  have empty : ∀ a : Area, a ≠ .sect 0 → Area.bytes head sects Traffic.start a = [] := by
    intro a other
    rw [Area.bytes, front_nil other]
    rfl
  have sectionnr : w₁.sectionnr = 0 :=
    placed.sectionnr.trans (header.sectionnr.trans sought.sectionnr)
  refine ⟨⟨?_, ?_⟩, ?_, table.sectionnr.trans sectionnr, Or.inl rfl, Nat.le_refl _, Or.inl rfl, ?_⟩
  · intro a live attached
    by_cases first : a = .sect 0
    · subst first
      have same : Area.bytes head sects Traffic.start (.sect 0) =
          head.bytes ++ (sects.map Outsect.bytes).flatten := by
        exact List.append_nil _
      rw [same]
      exact sentTable
    · rw [empty a first]
      exact (fresh_area sought placed later high first live attached).sent
  · intro a live parked
    have first : a ≠ .sect 0 := by
      rintro rfl
      exact parked (Or.inl (by decide))
    rw [empty a first]
    exact ⟨Holds.nil _ _, Or.inl rfl⟩
  · intro s highS few other
    have nonzero : s ≠ 0 := by
      rintro rfl
      exact absurd highS (by decide)
    have first : Area.sect s ≠ .sect 0 := fun same => nonzero (Area.sect.inj same)
    rw [empty _ first, table.offset s (Or.inl (sectionnr ▸ nonzero)), placed.offset s few]
    cases s with
    | zero => exact absurd rfl first
    | succ s => rfl
  · intro p nonzero low absent
    rw [later p nonzero, placed.others p (Or.inr (Or.inr absent)), header.others p nonzero,
      sought.others p nonzero low]

/-- Flushing a part leaves what is in the areas, and the part is empty. -/
theorem Stored.flush {bytes : Area → List Byte} (stored : Stored wbuf head sects bytes held w)
    (shared : sectcnt - 1 ≤ held) (apart : Apart head sects length)
    (fits : ∀ a : Area, a.Live sects → (bytes a).length ≤ length a) (p : Nat)
    (known : (∃ a : Area, a.Live sects ∧ a.Attached held ∧ a.part = p) ∨
      (w.parts p).pnow ≤ (w.parts p).pbegin) :
    Stored wbuf head sects bytes held (w.wrFlush wbuf p) := by
  by_cases attached : ∃ a : Area, a.Live sects ∧ a.Attached held ∧ a.part = p
  · obtain ⟨a, live, attached, rfl⟩ := attached
    have grows := grows_flush (stored.attached a live attached).buffered
    have after := stored.grows shared live attached grows apart (by
      rw [List.append_nil, update_eq_self]
      exact fits)
    rw [List.append_nil, update_eq_self] at after
    exact after
  · have empty := known.resolve_left attached
    have same : w.wrFlush wbuf p =
        w.setPart p { w.parts p with cnt := wbuf.siz, pnow := 0, pbegin := 0 } := by
      unfold Writer.wrFlush
      rw [if_neg (by omega)]
    rw [same]
    constructor
    · intro a live attachedA
      have other : a.part ≠ p := fun here => attached ⟨a, live, attachedA, here⟩
      apply (stored.attached a live attachedA).frame
      · simp only [Writer.setPart, update_of_ne other]
      · exact fun _ _ _ => rfl
      · exact Nat.le_refl _
    · exact stored.parked

theorem part_lt (a : Area) : a.part < nparts := by
  cases a with
  | sect s =>
    by_cases low : s < sectcnt - 1
    · rw [Area.part, getsect_low low]
      simp only [nparts, partchar, partname, partrelo] at low ⊢
      omega
    · rw [Area.part, getsect_high (by omega)]
      decide
  | _ => decide

/-- After `wr_close` the file has what was sent to every area. -/
theorem Settled.close (settled : Settled wbuf head sects t held w) (apart : Apart head sects length)
    (fits : ∀ a : Area, a.Live sects → (Area.bytes head sects t a).length ≤ length a) (a : Area)
    (live : a.Live sects) :
    Holds (w.wrClose wbuf).file (a.start head sects) (Area.bytes head sects t a) ∧
      (Area.bytes head sects t a = [] ∨
        a.start head sects + (Area.bytes head sects t a).length ≤ (w.wrClose wbuf).size) := by
  have shared := settled.shared
  have general : ∀ n, n ≤ nparts →
      Stored wbuf head sects (Area.bytes head sects t) held
        ((List.range n).foldl (Writer.wrFlush wbuf) w) ∧
      (∀ p, p < n → (((List.range n).foldl (Writer.wrFlush wbuf) w).parts p).pnow ≤
        (((List.range n).foldl (Writer.wrFlush wbuf) w).parts p).pbegin) ∧
      ∀ p, n ≤ p → ((List.range n).foldl (Writer.wrFlush wbuf) w).parts p = w.parts p := by
    intro n
    induction n with
    | zero =>
      intro _
      exact ⟨settled.stored, by simp, fun _ _ => rfl⟩
    | succ n ih =>
      intro bound
      obtain ⟨stored, empty, later⟩ := ih (by omega)
      rw [List.range_succ, List.foldl_append, List.foldl_cons, List.foldl_nil]
      refine ⟨?_, ?_, ?_⟩
      · apply stored.flush shared apart fits
        rw [later n (Nat.le_refl n)]
        by_cases exists_ : ∃ a : Area, a.Live sects ∧ a.Attached held ∧ a.part = n
        · exact Or.inl exists_
        · right
          -- a part without an area is one of a section that is not there
          have high' : n < sectcnt := by
            by_contra high
            have cases_ : n = partrelo ∨ n = partname ∨ n = partchar := by
              simp only [nparts, partchar, partname, partrelo, partemit] at bound high ⊢
              omega
            rcases cases_ with rfl | rfl | rfl
            · exact exists_ ⟨.relo, trivial, trivial, rfl⟩
            · exact exists_ ⟨.name, trivial, trivial, rfl⟩
            · exact exists_ ⟨.char, trivial, trivial, rfl⟩
          apply settled.idle n
          · rintro rfl
            exact exists_ ⟨.sect 0, Or.inl rfl, Or.inl (by decide), rfl⟩
          · exact high'
          · by_contra few
            by_cases low : n < sectcnt - 1
            · exact exists_ ⟨.sect n, Or.inr (by omega), Or.inl low, by
                rw [Area.part, getsect_low low, partemit, Nat.zero_add]⟩
            · have two : n = 2 := by
                simp only [sectcnt] at low high'
                omega
              subst two
              refine exists_ ⟨.sect held, ?_, Or.inr rfl, ?_⟩
              · rcases settled.stands with first | valid
                · right
                  omega
                · exact Or.inr valid
              · rw [Area.part, getsect_high shared]
                rfl
      · intro p low
        by_cases here : p = n
        · subst here
          exact wrFlush_empty
        · rw [wrFlush_others here]
          exact empty p (by omega)
      · intro p high
        rw [wrFlush_others (by omega)]
        exact later p (by omega)
  obtain ⟨stored, empty, _⟩ := general nparts (Nat.le_refl _)
  by_cases attached : a.Attached held
  · have sent := stored.attached a live attached
    have none := empty a.part (part_lt a)
    exact ⟨sent.stored none, sent.stored_size none⟩
  · exact stored.parked a live attached

end Run

end AckFormal.Object
