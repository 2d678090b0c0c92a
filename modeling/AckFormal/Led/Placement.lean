import AckFormal.Led.Link
import AckFormal.Lib.Folds

/-!
# Where led puts the modules

A section of a module takes as much room as its size after rounding.  `start` is
where the next module goes, `stop` where the bytes that are written end.  Pass 1
keeps the same number in three places: the size of the output section, which is the
origin for names, the bytes in the piece together with the zeros it still owes, and
the length in the file.  Pass 2 adds the sizes up again.
-/

namespace AckFormal.Led

namespace Module

def sect (modul : Module) (s : Nat) : Sect := modul.sects.getD s default

def room (modul : Module) (s : Nat) : Nat := (modul.sect s).rounded.size.toNat

def flen (modul : Module) (s : Nat) : Nat := (modul.sect s).flen.toNat

end Module

theorem rounded_flen (sect : Sect) : sect.rounded.flen = sect.flen := by
  simp only [Sect.rounded]
  split <;> rfl

theorem rounded_contents (sect : Sect) : sect.rounded.contents = sect.contents := by
  simp only [Sect.rounded]
  split <;> rfl

theorem rounded_default : (default : Sect).rounded = default := rfl

theorem directAlloc_length (modul : Module) :
    (directAlloc modul).sects.length = modul.sects.length := by
  simp only [directAlloc, List.length_map]

theorem directAlloc_getD (modul : Module) (s : Nat) :
    (directAlloc modul).sects.getD s default = (modul.sect s).rounded := by
  simp only [directAlloc, Module.sect, List.getD_eq_getElem?_getD, List.getElem?_map]
  cases modul.sects[s]? with
  | none => rfl
  | some _ => rfl

variable {modul : Module} {s n i : Nat} {piece : Piece} {contents : Core}

section

variable (absent : modul.sects.length ≤ s)
include absent

theorem sect_of_le : modul.sect s = default := by
  simp only [Module.sect, List.getD_eq_getElem?_getD, List.getElem?_eq_none absent,
    Option.getD_none]

theorem room_of_le : modul.room s = 0 := by
  rw [Module.room, sect_of_le absent]
  rfl

theorem flen_of_le : modul.flen s = 0 := by
  rw [Module.flen, sect_of_le absent]
  rfl

end

def start (moduls : List Module) (s : Nat) : Nat :=
  (moduls.map (fun modul => modul.room s)).sum

def stop : List Module → Nat → Nat
  | [], _ => 0
  | modul :: rest, s =>
    if stop rest s ≠ 0 then modul.room s + stop rest s else modul.flen s

theorem start_append (moduls : List Module) (modul : Module) (s : Nat) :
    start (moduls ++ [modul]) s = start moduls s + modul.room s := by
  simp only [start, List.map_append, List.map_cons, List.map_nil, List.sum_append, List.sum_cons,
    List.sum_nil, Nat.add_zero]

theorem stop_append (moduls : List Module) (modul : Module) (s : Nat) :
    stop (moduls ++ [modul]) s =
      if modul.flen s ≠ 0 then start moduls s + modul.flen s else stop moduls s := by
  induction moduls with
  | nil =>
    by_cases bytes : modul.flen s = 0
    · simp [stop, bytes]
    · simp [stop, start]
  | cons first rest ih =>
    simp only [List.cons_append, stop, ih]
    by_cases bytes : modul.flen s = 0
    · simp only [bytes, ne_eq, not_true_eq_false, if_false]
    · simp only [ne_eq, bytes, not_false_eq_true, if_true]
      rw [if_pos (by omega)]
      exact (Nat.add_assoc _ _ _).symm

/-! ## Pass 1 -/

/-- What pass 1 has done with the sections of the modules that it has read. -/
structure Placed (moduls : List Module) (scan : Scan) : Prop where
  size : ∀ s, (scan.outsect s).size = BitVec.ofNat 32 (start moduls s)
  origin : ∀ s, scan.relorig s = ((scan.outsect s).size.toNat : Int)
  zeros : ∀ s, ((scan.emits s).full : Int) + scan.zeros s = start moduls s
  full : ∀ s, (scan.emits s).full = stop moduls s
  flen : ∀ s, (scan.outsect s).flen = BitVec.ofNat 32 (stop moduls s)
  base : ∀ s, (scan.outsect s).base = 0
  lign : ∀ s, (scan.outsect s).lign = 0
  nsect : scan.nsect = (moduls.map (fun modul => modul.sects.length)).foldr max 0
  nrelo : scan.nrelo = BitVec.ofNat 16 (moduls.map (fun modul => modul.relos.length)).sum
  saved : scan.saved.map Saved.modul = moduls.map directAlloc
  emitindex : ∀ (k : Nat) (modul : Module) (saved : Saved), moduls[k]? = some modul →
    scan.saved[k]? = some saved → ∀ s, modul.flen s ≠ 0 →
    saved.emitindex s = start (moduls.take k) s
  bytes : ∀ (k : Nat) (modul : Module), moduls[k]? = some modul → ∀ s i, i < modul.flen s →
    (scan.emits s).bytes (start (moduls.take k) s + i) = (modul.sect s).contents i
  inside : ∀ (k : Nat) (modul : Module), moduls[k]? = some modul → ∀ s, modul.flen s ≠ 0 →
    start (moduls.take k) s + modul.flen s ≤ stop moduls s

theorem Piece.append_zero (piece : Piece) (contents : Core) : piece.append 0 contents = piece := by
  simp only [Piece.append]
  congr 1
  funext i
  rw [if_neg (by omega)]

theorem Piece.append_outside (outside : ¬(piece.full ≤ i ∧ i < piece.full + n)) :
    (piece.append n contents).bytes i = piece.bytes i := by
  simp only [Piece.append]
  rw [if_neg outside]

theorem Piece.append_below (below : i < piece.full) :
    (piece.append n contents).bytes i = piece.bytes i :=
  Piece.append_outside (by omega)

theorem Piece.append_inside (bound : i < n) :
    (piece.append n contents).bytes (piece.full + i) = contents i := by
  simp only [Piece.append]
  rw [if_pos (by omega), Nat.add_sub_cancel_left]

section Putemitindex

variable {sect : Sect} {zero : Int} {piece : Piece}

/-- A section without bytes takes nothing from the piece. -/
theorem putemitindex_empty (empty : sect.flen = 0#32) :
    (putemitindex sect zero piece).1 = piece ∧
      (putemitindex sect zero piece).2.1 = zero + (sect.size.toNat : Int) := by
  simp only [putemitindex, empty]
  constructor
  · exact Piece.append_zero piece sect.contents
  · simp

/-- The zeros that are owed go before the bytes of the section. -/
theorem putemitindex_bytes (piece : Piece) (bytes : sect.flen ≠ 0#32) (owed : 0 ≤ zero) :
    ∃ filled : Piece, filled.full = piece.full + zero.toNat ∧
      (∀ i, i < piece.full → filled.bytes i = piece.bytes i) ∧
      putemitindex sect zero piece = (filled.append sect.flen.toNat sect.contents,
        (sect.size.toNat : Int) - (sect.flen.toNat : Int), filled.full) := by
  by_cases none : zero = 0
  · subst none
    refine ⟨piece, by simp, fun _ _ => rfl, ?_⟩
    simp [putemitindex]
  · refine ⟨piece.append zero.toNat (fun _ => 0), rfl, ?_, ?_⟩
    · intro i below
      exact Piece.append_below below
    · simp only [putemitindex, ne_eq, bytes, none, not_false_eq_true, and_self, if_true, zero_add]

end Putemitindex

/-- What reading one module does to the variables of pass 1. -/
theorem extract_some {flags : Flags} {scan scan' : Scan}
    (ran : extract flags scan modul = some scan') :
    ∃ tables, modul.names.foldlM (getName flags.sflag scan.relorig) scan.tables = some tables ∧
      (∀ s, modul.flen s = 0 ∨ 0 ≤ scan.zeros s) ∧
      scan'.tables = tables ∧
      (∀ s, scan'.emits s =
        (putemitindex (modul.sect s).rounded (scan.zeros s) (scan.emits s)).1) ∧
      (∀ s, scan'.zeros s =
        (putemitindex (modul.sect s).rounded (scan.zeros s) (scan.emits s)).2.1) ∧
      (scan'.saved = scan.saved ++ [⟨directAlloc modul, fun s =>
        (putemitindex (modul.sect s).rounded (scan.zeros s) (scan.emits s)).2.2⟩]) ∧
      (∀ s, scan'.outsect s = addSect (scan.outsect s) (modul.sect s).rounded) ∧
      (∀ s, scan'.relorig s = if s < modul.sects.length then
        ((scan'.outsect s).size.toNat : Int) else scan.relorig s) ∧
      scan'.nsect = max scan.nsect modul.sects.length ∧
      scan'.nrelo = scan.nrelo + BitVec.ofNat 16 modul.relos.length ∧
      scan'.nemit = (List.range modul.sects.length).foldl
        (fun nemit s => nemit + gap (scan.outsect s) (modul.sect s).rounded)
        (scan.nemit + modul.nemit) := by
  obtain ⟨scanned, didScan, rest⟩ := Option.bind_eq_some_iff.mp ran
  obtain ⟨named, didNames, done⟩ := Option.bind_eq_some_iff.mp rest
  obtain ⟨tables, collected, sameNamed⟩ := Option.bind_eq_some_iff.mp didNames
  simp only [scanModul, directAlloc_getD, directAlloc_length] at didScan
  split at didScan
  · rename_i fill
    cases didScan
    cases sameNamed
    cases done
    refine ⟨tables, collected, ?_, rfl, ?_, ?_, rfl, ?_, ?_, ?_, rfl, ?_⟩
    · intro s
      by_cases present : s < modul.sects.length
      · have one := List.all_eq_true.mp fill s (List.mem_range.mpr present)
        simp only [fillable, directAlloc_getD, rounded_flen, decide_eq_true_eq] at one
        rcases one with empty | owed
        · left
          rw [Module.flen, empty]
          rfl
        · exact Or.inr owed
      · exact Or.inl (flen_of_le (Nat.not_lt.mp present))
    · intro s
      simp only [process]
      split
      · rfl
      · rename_i absent
        rw [sect_of_le (Nat.not_lt.mp absent), rounded_default]
        exact ((putemitindex_empty rfl).1).symm
    · intro s
      simp only [process]
      split
      · rfl
      · rename_i absent
        rw [sect_of_le (Nat.not_lt.mp absent), rounded_default, (putemitindex_empty rfl).2]
        exact (Int.add_zero _).symm
    · intro s
      simp only [process, directAlloc_length, directAlloc_getD]
      split
      · rfl
      · rename_i absent
        rw [sect_of_le (Nat.not_lt.mp absent), rounded_default]
        simp [addSect, default]
    · intro s
      simp only [process, directAlloc_length]
    · simp only [process, directAlloc_length]
    · simp only [process, directAlloc_length, directAlloc_getD]
      rfl
  · cases didScan

theorem flen_eq_zero (empty : modul.flen s = 0) : (modul.sect s).rounded.flen = 0#32 := by
  rw [rounded_flen]
  exact BitVec.eq_of_toNat_eq empty

theorem flen_ne_zero (bytes : modul.flen s ≠ 0) : (modul.sect s).rounded.flen ≠ 0#32 := by
  intro empty
  apply bytes
  rw [Module.flen, ← rounded_flen, empty]
  rfl

/-- Positions in a list and in the list with one more element. -/
theorem getElem?_append_one {α : Type*} {list : List α} {last a : α} {k : Nat}
    (here : (list ++ [last])[k]? = some a) :
    (list[k]? = some a ∧ (list ++ [last]).take k = list.take k) ∨
      (k = list.length ∧ a = last ∧ (list ++ [last]).take k = list) := by
  by_cases old : k < list.length
  · left
    rw [List.getElem?_append_left old] at here
    exact ⟨here, List.take_append_of_le_length (Nat.le_of_lt old)⟩
  · right
    have bound := (List.getElem?_eq_some_iff.mp here).1
    rw [List.length_append, List.length_singleton] at bound
    have last : k = list.length := by omega
    subst last
    simp only [List.getElem?_concat_length, Option.some.injEq] at here
    exact ⟨rfl, here.symm, List.take_left⟩

section Step

variable {moduls : List Module} {scan scan' : Scan} {modul : Module} {flags : Flags}

theorem addSect_size (out : OutSect) (sect : Sect) :
    (addSect out sect).size = out.size + sect.size := rfl

theorem foldr_max_append (list : List Nat) (n : Nat) :
    (list ++ [n]).foldr max 0 = max (list.foldr max 0) n := by
  induction list with
  | nil => simp
  | cons first rest ih => simp only [List.cons_append, List.foldr_cons, ih, Nat.max_assoc]

/-- A section with bytes goes where the zeros that are owed end. -/
theorem Placed.put_bytes (placed : Placed moduls scan) {s : Nat} (bytes : modul.flen s ≠ 0)
    (owed : 0 ≤ scan.zeros s) :
    ∃ filled : Piece, filled.full = start moduls s ∧ (scan.emits s).full ≤ filled.full ∧
      (∀ i, i < (scan.emits s).full → filled.bytes i = (scan.emits s).bytes i) ∧
      putemitindex (modul.sect s).rounded (scan.zeros s) (scan.emits s) =
        (filled.append (modul.flen s) (modul.sect s).contents,
          (modul.room s : Int) - (modul.flen s : Int), filled.full) := by
  obtain ⟨filled, full, below, put⟩ :=
    putemitindex_bytes (scan.emits s) (flen_ne_zero bytes) owed
  have count := placed.zeros s
  refine ⟨filled, by omega, by omega, below, ?_⟩
  rw [put, rounded_contents, rounded_flen]
  rfl

/-- Reading one more module only adds bytes to a piece. -/
theorem Placed.put_grows (placed : Placed moduls scan) {s : Nat}
    (owed : modul.flen s = 0 ∨ 0 ≤ scan.zeros s) :
    let after := (putemitindex (modul.sect s).rounded (scan.zeros s) (scan.emits s)).1
    (scan.emits s).full ≤ after.full ∧
      ∀ i, i < (scan.emits s).full → after.bytes i = (scan.emits s).bytes i := by
  by_cases empty : modul.flen s = 0
  · rw [(putemitindex_empty (flen_eq_zero empty)).1]
    exact ⟨Nat.le_refl _, fun _ _ => rfl⟩
  · obtain ⟨filled, _, grown, below, put⟩ := placed.put_bytes empty (owed.resolve_left empty)
    simp only [put]
    refine ⟨Nat.le_trans grown (Nat.le_add_right _ _), ?_⟩
    intro i inside
    rw [Piece.append_below (Nat.lt_of_lt_of_le inside grown)]
    exact below i inside

theorem ofNat_room (modul : Module) (s : Nat) :
    BitVec.ofNat 32 (modul.room s) = (modul.sect s).rounded.size := by
  rw [Module.room, BitVec.ofNat_toNat, BitVec.setWidth_eq]

theorem ofNat_flen (modul : Module) (s : Nat) :
    BitVec.ofNat 32 (modul.flen s) = (modul.sect s).rounded.flen := by
  rw [Module.flen, BitVec.ofNat_toNat, BitVec.setWidth_eq, rounded_flen]

/-- Reading one more module keeps the three counts together. -/
theorem Placed.extract (placed : Placed moduls scan) (ran : extract flags scan modul = some scan') :
    Placed (moduls ++ [modul]) scan' := by
  obtain ⟨tables, _, owed, _, emits, zeros, saved, outsect, relorig, nsect, nrelo, _⟩ :=
    extract_some ran
  have lengths : scan.saved.length = moduls.length := by
    have same := congrArg List.length placed.saved
    simpa using same
  have newFull : ∀ s, (scan'.emits s).full = stop (moduls ++ [modul]) s := by
    intro s
    rw [emits, stop_append]
    by_cases empty : modul.flen s = 0
    · rw [(putemitindex_empty (flen_eq_zero empty)).1, placed.full]
      simp [empty]
    · obtain ⟨filled, full, _, _, put⟩ := placed.put_bytes empty ((owed s).resolve_left empty)
      rw [put, if_pos empty, ← full]
      rfl
  constructor
  case size =>
    intro s
    rw [outsect, addSect_size, placed.size, start_append, BitVec.ofNat_add, ofNat_room]
  case origin =>
    intro s
    rw [relorig]
    split
    · rfl
    · rename_i absent
      have none : (default : Sect).size = 0#32 := rfl
      rw [placed.origin, outsect, addSect_size, sect_of_le (Nat.not_lt.mp absent),
        rounded_default, none, BitVec.add_zero]
  case zeros =>
    intro s
    rw [zeros, emits, start_append]
    have before := placed.zeros s
    by_cases empty : modul.flen s = 0
    · rw [(putemitindex_empty (flen_eq_zero empty)).1, (putemitindex_empty (flen_eq_zero empty)).2]
      simp only [Module.room]
      omega
    · obtain ⟨filled, full, _, _, put⟩ := placed.put_bytes empty ((owed s).resolve_left empty)
      simp only [put, Piece.append]
      omega
  case full => exact newFull
  case flen =>
    intro s
    rw [outsect, stop_append]
    by_cases empty : modul.flen s = 0
    · simp [addSect, flen_eq_zero empty, empty, placed.flen]
    · rw [if_pos empty, BitVec.ofNat_add, ofNat_flen, ← placed.size]
      simp [addSect, flen_ne_zero empty]
  case base =>
    intro s
    rw [outsect]
    exact placed.base s
  case lign =>
    intro s
    rw [outsect]
    exact placed.lign s
  case nsect =>
    rw [nsect, placed.nsect, List.map_append]
    exact (foldr_max_append _ _).symm
  case nrelo =>
    rw [nrelo, placed.nrelo, List.map_append, List.sum_append, BitVec.ofNat_add]
    rfl
  case saved =>
    rw [saved, List.map_append, List.map_append, placed.saved]
    rfl
  case emitindex =>
    intro k other inCore atModul atSaved s bytes
    rw [saved] at atSaved
    rcases getElem?_append_one atModul with ⟨old, taken⟩ | ⟨last, rfl, taken⟩
    · have bound := (List.getElem?_eq_some_iff.mp old).1
      rw [List.getElem?_append_left (by omega)] at atSaved
      rw [taken]
      exact placed.emitindex k other inCore old atSaved s bytes
    · rw [last, ← lengths, List.getElem?_concat_length] at atSaved
      cases atSaved
      obtain ⟨filled, full, _, _, put⟩ := placed.put_bytes bytes ((owed s).resolve_left bytes)
      rw [taken]
      simp only [put]
      exact full
  case bytes =>
    intro k other atModul s i bound
    rw [emits]
    rcases getElem?_append_one atModul with ⟨old, taken⟩ | ⟨last, rfl, taken⟩
    · have inside := placed.inside k other old s (by omega)
      have grows := (placed.put_grows (owed s)).2 (start (moduls.take k) s + i)
        (by rw [placed.full]; omega)
      rw [taken, grows]
      exact placed.bytes k other old s i bound
    · obtain ⟨filled, full, _, _, put⟩ := placed.put_bytes (by omega : other.flen s ≠ 0)
        ((owed s).resolve_left (by omega))
      rw [taken, put, ← full]
      exact Piece.append_inside bound
  case inside =>
    intro k other atModul s bytes
    rcases getElem?_append_one atModul with ⟨old, taken⟩ | ⟨last, rfl, taken⟩
    · have inside := placed.inside k other old s bytes
      have grows := (placed.put_grows (owed s)).1
      rw [taken, ← newFull, emits]
      rw [placed.full] at grows
      omega
    · rw [taken, stop_append, if_pos bytes]

end Step

theorem Placed.initial (undefs : List Str) : Placed [] (Scan.initial undefs) := by
  constructor <;> intros <;> first | rfl | simp_all

theorem firstPass_placed {flags : Flags} {undefs : List Str} {moduls : List Module} {scan : Scan}
    (ran : firstPass flags undefs moduls = some scan) : Placed moduls scan := by
  apply Lib.foldlM_invariant Placed (Placed.initial undefs) _ ran
  intro done modul before after _ placed read
  exact placed.extract read

end AckFormal.Led
