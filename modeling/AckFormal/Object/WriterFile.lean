import AckFormal.Object.WriterPlaces

/-!
# The file that the object writer makes

The header and the section table give ranges of the file.  If these are disjoint every
byte ends up in its place, provided that every call finds the shared part at the section
that it is for.
-/

namespace AckFormal.Object

open Led (Byte)
open Lib

/-- The ranges of the file that the header and the section table give: the table itself,
the sections, relocations, names and strings. -/
def fileRanges (head : Outhead) (sects : List Outsect) : List (Nat × Nat) :=
  (0, head.offEmit) :: (sects.map fun sect => (sect.foff.toNat, sect.flen.toNat)) ++
    [(head.offRelo, head.nrelo.toNat * szRelo), (head.offName, head.nname.toNat * szName),
      (head.offChar, head.nchar.toNat)]

def DisjointRanges (a b : Nat × Nat) : Prop :=
  a.2 = 0 ∨ b.2 = 0 ∨ a.1 + a.2 ≤ b.1 ∨ b.1 + b.2 ≤ a.1

instance (a b : Nat × Nat) : Decidable (DisjointRanges a b) := by
  unfold DisjointRanges
  infer_instance

/-- An object file that can be written: the sections exist, the ranges are disjoint, and
the calls send as much as the header and the section table say. -/
structure Writable (head : Outhead) (sects : List Outsect) (calls : List Call) : Prop where
  nsect : head.nsect.toNat = sects.length
  few : sects.length ≤ maxsect
  disjoint : (fileRanges head sects).Pairwise DisjointRanges
  valid : ∀ c ∈ calls, c.Valid sects
  flen : ∀ s, ((traffic calls).sent (.sect s)).length =
    if s < sects.length then (sects.getD s default).flen.toNat else 0
  nrelo : ((traffic calls).sent .relo).length = head.nrelo.toNat * szRelo
  nname : ((traffic calls).sent .name).length = head.nname.toNat * szName
  nchar : ((traffic calls).sent .char).length = head.nchar.toNat

structure InPlace (head : Outhead) (sects : List Outsect) (calls : List Call)
    (file : Nat → Byte) : Prop where
  table : Holds file 0 (head.bytes ++ (sects.map Outsect.bytes).flatten)
  sections : ∀ s, s < sects.length →
    Holds file (sects.getD s default).foff.toNat ((traffic calls).sent (.sect s))
  relos : Holds file head.offRelo ((traffic calls).sent .relo)
  names : Holds file head.offName ((traffic calls).sent .name)
  strings : Holds file head.offChar ((traffic calls).sent .char)

section File

variable {head : Outhead} {sects : List Outsect} {calls : List Call}

theorem table_length (nsect : head.nsect.toNat = sects.length) :
    (head.bytes ++ (sects.map Outsect.bytes).flatten).length = head.offEmit := by
  rw [List.length_append, flatten_length szSect, List.length_map, Outhead.bytes_length,
    Outhead.offEmit, nsect]
  intro record member
  obtain ⟨sect, _, rfl⟩ := List.mem_map.mp member
  rfl

def Area.index (n : Nat) : Area → Nat
  | .sect s => s + 1
  | .relo => n + 1
  | .name => n + 2
  | .char => n + 3

def Area.range (head : Outhead) (sects : List Outsect) : Area → Nat × Nat
  | .sect s => ((sects.getD s default).foff.toNat, (sects.getD s default).flen.toNat)
  | .relo => (head.offRelo, head.nrelo.toNat * szRelo)
  | .name => (head.offName, head.nname.toNat * szName)
  | .char => (head.offChar, head.nchar.toNat)

theorem range_index {a : Area} (exists_ : ∀ s, a = .sect s → s < sects.length) :
    (fileRanges head sects)[a.index sects.length]? = some (a.range head sects) := by
  have past : ∀ i, (fileRanges head sects)[sects.length + 1 + i]? =
      [(head.offRelo, head.nrelo.toNat * szRelo), (head.offName, head.nname.toNat * szName),
        (head.offChar, head.nchar.toNat)][i]? := by
    intro i
    have length : ((0, head.offEmit) :: (sects.map fun sect =>
        (sect.foff.toNat, sect.flen.toNat))).length = sects.length + 1 := by simp
    rw [fileRanges, List.getElem?_append_right (by omega), length, Nat.add_sub_cancel_left]
  cases a with
  | sect s =>
    have few := exists_ s rfl
    rw [Area.index, fileRanges, List.getElem?_append_left (by simpa using few),
      List.getElem?_cons_succ, List.getElem?_map, Area.range, List.getD_eq_getElem?_getD,
      List.getElem?_eq_getElem few]
    rfl
  | relo => exact past 0
  | name => exact past 1
  | char => exact past 2

theorem disjoint_at {ranges : List (Nat × Nat)} (disjoint : ranges.Pairwise DisjointRanges)
    {i j : Nat} {a b : Nat × Nat} (other : i ≠ j) (atI : ranges[i]? = some a)
    (atJ : ranges[j]? = some b) : DisjointRanges a b := by
  obtain ⟨boundI, rfl⟩ := List.getElem?_eq_some_iff.mp atI
  obtain ⟨boundJ, rfl⟩ := List.getElem?_eq_some_iff.mp atJ
  rw [List.pairwise_iff_getElem] at disjoint
  rcases Nat.lt_or_gt_of_ne other with before | after
  · exact disjoint i j boundI boundJ before
  · have swapped := disjoint j i boundJ boundI after
    unfold DisjointRanges at swapped ⊢
    omega

theorem Writable.sent_length (writable : Writable head sects calls) {a : Area}
    (exists_ : ∀ s, a = .sect s → s < sects.length) :
    ((traffic calls).sent a).length = (a.range head sects).2 := by
  cases a with
  | sect s =>
    rw [writable.flen s, if_pos (exists_ s rfl)]
    rfl
  | relo => exact writable.nrelo
  | name => exact writable.nname
  | char => exact writable.nchar

/-- Disjoint ranges make disjoint areas if section 0 comes right after the table. -/
theorem Writable.apart (writable : Writable head sects calls)
    (first : (sects.getD 0 default).flen = 0 ∨
      (sects.getD 0 default).foff.toNat = head.offEmit) :
    Apart head sects fun a => (Area.bytes head sects (traffic calls) a).length := by
  have disjoint := writable.disjoint
  -- a byte of an area is in the table or in the range of the area
  have inRange : ∀ a : Area, a.Live sects → ∀ x, a.start head sects ≤ x →
      x < a.start head sects + (Area.bytes head sects (traffic calls) a).length →
      (a = .sect 0 ∧ x < head.offEmit) ∨ ((∀ s, a = .sect s → s < sects.length) ∧
        (a.range head sects).1 ≤ x ∧
        x < (a.range head sects).1 + (a.range head sects).2) := by
    intro a live x low high
    by_cases zero : a = .sect 0
    · subst zero
      by_cases inTable : x < head.offEmit
      · exact Or.inl ⟨rfl, inTable⟩
      · right
        have front : (Area.front head sects (.sect 0)).length = head.offEmit :=
          table_length writable.nsect
        rw [Area.bytes, List.length_append, front, Area.start, Nat.zero_add, writable.flen 0] at high
        by_cases none : 0 < sects.length
        · rw [if_pos none] at high
          refine ⟨?_, ?_⟩
          · intro s same
            cases same
            exact none
          · simp only [Area.range]
            rcases first with empty | after
            · have nothing : BitVec.toNat (0 : BitVec 32) = 0 := rfl
              rw [empty, nothing] at high
              omega
            · omega
        · rw [if_neg none] at high
          omega
    · right
      have exists_ : ∀ s, a = .sect s → s < sects.length := by
        rintro s rfl
        rcases live with rfl | few
        · exact absurd rfl zero
        · exact few
      have start : a.start head sects = (a.range head sects).1 := by
        cases a with
        | sect s =>
          cases s with
          | zero => exact absurd rfl zero
          | succ s => rfl
        | _ => rfl
      rw [Area.bytes, front_nil zero, List.nil_append, writable.sent_length exists_, start] at high
      rw [start] at low
      exact ⟨exists_, low, high⟩
  have atZero : (fileRanges head sects)[0]? = some (0, head.offEmit) := rfl
  intro a b liveA liveB other x lowA highA lowB highB
  have apart : ∀ {i j : Nat} {r q : Nat × Nat}, i ≠ j → (fileRanges head sects)[i]? = some r →
      (fileRanges head sects)[j]? = some q → r.1 ≤ x → x < r.1 + r.2 → q.1 ≤ x →
      x < q.1 + q.2 → False := by
    intro i j r q different atI atJ lowR highR lowQ highQ
    have separate := disjoint_at disjoint different atI atJ
    unfold DisjointRanges at separate
    omega
  have indexed : ∀ c : Area, 0 ≠ c.index sects.length := by
    intro c
    cases c <;> simp only [Area.index] <;> omega
  rcases inRange a liveA x lowA highA with ⟨rfl, inTable⟩ | ⟨existsA, lowRA, highRA⟩
  · rcases inRange b liveB x lowB highB with ⟨rfl, _⟩ | ⟨existsB, lowRB, highRB⟩
    · exact other rfl
    · exact apart (indexed b) atZero (range_index existsB) (Nat.zero_le _)
        (by rw [Nat.zero_add]; exact inTable) lowRB highRB
  · rcases inRange b liveB x lowB highB with ⟨rfl, inTable⟩ | ⟨existsB, lowRB, highRB⟩
    · exact apart (indexed a) atZero (range_index existsA) (Nat.zero_le _)
        (by rw [Nat.zero_add]; exact inTable) lowRA highRA
    · apply apart _ (range_index existsA) (range_index existsB) lowRA highRA lowRB highRB
      intro same
      apply other
      cases a with
      | sect s =>
        have := existsA s rfl
        cases b with
        | sect t =>
          simp only [Area.index] at same
          congr 1
          omega
        | _ =>
          simp only [Area.index] at same
          omega
      | _ =>
        cases b with
        | sect t =>
          have := existsB t rfl
          simp only [Area.index] at same
          omega
        | _ => simp [Area.index] at same ⊢

end File

/-- If section 0 comes right after the section table, and every call finds the shared
part at the section that it is for, the file has every byte in its place. -/
theorem write_in_place (wbuf : Wbuf) (head : Outhead) (sects : List Outsect) (calls : List Call)
    (writable : Writable head sects calls)
    (first : (sects.getD 0 default).flen = 0 ∨
      (sects.getD 0 default).foff.toNat = head.offEmit)
    (right : (tracked calls).isSome = true) :
    InPlace head sects calls (Writer.write wbuf head sects calls).file := by
  have apart := writable.apart first
  obtain ⟨held, settled⟩ := (settled_start wbuf head sects).calls writable.valid right apart
    (fun _ _ => Nat.le_refl _)
  have closed := fun (a : Area) (live : a.Live sects) =>
    (settled.close apart (fun _ _ => Nat.le_refl _) a live).1
  have whole := closed (.sect 0) (Or.inl rfl)
  constructor
  · exact whole.left
  · intro s few
    cases s with
    | zero =>
      have after := whole.right
      have length : (Area.front head sects (.sect 0)).length = head.offEmit :=
        table_length writable.nsect
      rcases first with empty | place
      · have none := writable.flen 0
        rw [if_pos few, empty] at none
        rw [List.length_eq_zero_iff.mp none]
        exact Holds.nil _ _
      · rw [length, Area.start, Nat.zero_add, ← place] at after
        exact after
    | succ s => exact closed (.sect (s + 1)) (Or.inr few)
  · exact closed .relo trivial
  · exact closed .name trivial
  · exact closed .char trivial

def wbuf1024 : Wbuf := ⟨10, by decide⟩

def fourSectionsHead : Outhead := ⟨0x202, 0, 0, 4, 0, 0, 2, 0⟩

def fourSections : List Outsect :=
  [⟨0, 0, 100, 0, 1⟩, ⟨0, 0, 100, 0, 1⟩, ⟨0, 1, 100, 1, 1⟩, ⟨0, 1, 101, 1, 1⟩]

def directCalls : List Call := [.outsect 2, .putc 1, .outsect 3, .putc 2]

/-- Section 3 is selected while the shared part stands at section 2. -/
def swappedCalls : List Call := [.outsect 3, .putc 2, .outsect 2, .putc 1]

theorem traffic_lengths {calls : List Call} (same : ∀ s, ((traffic calls).sent (.sect s)).length =
    if s = 2 ∨ s = 3 then 1 else 0) (s : Nat) : ((traffic calls).sent (.sect s)).length =
    if s < fourSections.length then (fourSections.getD s default).flen.toNat else 0 := by
  rw [same s]
  match s with
  | 0 | 1 | 2 | 3 => rfl
  | s + 4 => rfl

theorem directCalls_writable : Writable fourSectionsHead fourSections directCalls where
  nsect := rfl
  few := by decide
  disjoint := by decide
  valid := by simp [directCalls, Call.Valid, fourSections]
  flen := by
    apply traffic_lengths
    intro s
    match s with
    | 0 | 1 | 2 | 3 => rfl
    | s + 4 => rfl
  nrelo := rfl
  nname := rfl
  nchar := rfl

theorem swappedCalls_writable : Writable fourSectionsHead fourSections swappedCalls where
  nsect := rfl
  few := by decide
  disjoint := by decide
  valid := by simp [swappedCalls, Call.Valid, fourSections]
  flen := by
    apply traffic_lengths
    intro s
    match s with
    | 0 | 1 | 2 | 3 => rfl
    | s + 4 => rfl
  nrelo := rfl
  nname := rfl
  nchar := rfl

theorem write_direct_in_place : InPlace fourSectionsHead fourSections directCalls
    (Writer.write wbuf1024 fourSectionsHead fourSections directCalls).file :=
  write_in_place wbuf1024 fourSectionsHead fourSections directCalls directCalls_writable
    (Or.inl rfl) rfl

theorem wrRecords_once {wbuf : Wbuf} {w : Writer} {p sz : Nat} (some_ : 0 < sz) (small : sz ≤ 256)
    {records : List (List Byte)} (more : records ≠ []) (fits : records.length ≤ (w.parts p).cnt / sz) :
    w.wrRecords wbuf p sz some_ small records = w.store p records.flatten := by
  rw [Writer.wrRecords, dif_neg more]
  simp only [Nat.min_eq_right fits, List.drop_length, List.take_length, if_true]

/-- The byte of section 3 is written where section 2 is, and then overwritten. -/
theorem write_swapped_misplaced :
    ∃ (wbuf : Wbuf) (head : Outhead) (sects : List Outsect) (calls : List Call),
      Writable head sects calls ∧ (sects.getD 0 default).foff.toNat = head.offEmit ∧
        ¬InPlace head sects calls (Writer.write wbuf head sects calls).file := by
  refine ⟨wbuf1024, fourSectionsHead, fourSections, swappedCalls, swappedCalls_writable, rfl, ?_⟩
  intro inPlace
  have section3 := inPlace.sections 3 (by decide)
  have byte : (Writer.write wbuf1024 fourSectionsHead fourSections swappedCalls).file 101 = 0 := by
    rw [Writer.write, Writer.wrSect, wrRecords_once _ _ (by decide) (by decide)]
    decide
  have sent : (traffic swappedCalls).sent (.sect 3) = [2#8] := rfl
  rw [sent, Holds] at section3
  have value : (Writer.write wbuf1024 fourSectionsHead fourSections swappedCalls).file 101 = 2#8 :=
    (List.cons.inj section3).1
  rw [byte] at value
  exact absurd value (by decide)

end AckFormal.Object
