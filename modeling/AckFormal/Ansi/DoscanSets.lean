import AckFormal.Ansi.Doscan

/-!
# Scan sets

What the text of a scan set names, and the proof that the loop over the format marks it.
-/

namespace AckFormal.Ansi.Doscan

open Lib.Lookahead
open List (dropWhile_cons_of_pos mem_cons takeWhile_cons_of_pos)

def InTable (c : Int) : Prop := 0 ≤ c ∧ c < NR_CHARS

def inText (c : Int) : Bool := c ≠ 0 ∧ c ≠ chr ']'

/-- The characters that a text names, by ranges and by themselves. -/
def named : List Int → Int → Bool
  | [], _ => false
  | [a], c => c = a
  | [a, d], c => c = a ∨ c = d
  | a :: d :: b :: rest, c =>
    if d = chr '-' then
      if a ≤ b then (a ≤ c ∧ c ≤ b : Bool) || named rest c
      else (c = a ∨ c = d : Bool) || named (b :: rest) c
    else c = a || named (d :: b :: rest) c

/-- The set from the character after `[`: whether it is reversed, its text and the format after it. A
bracket that stands first does not end it. -/
def setOf (format : List Int) : Bool × List Int × List Int :=
  let reverse : Bool := peek format = chr '^'
  let format := if reverse then format.tail else format
  if peek format = chr ']' then
    (reverse, chr ']' :: format.tail.takeWhile inText, format.tail.dropWhile inText)
  else (reverse, format.takeWhile inText, format.dropWhile inText)

def inSet (text : List Int) (c : Int) : Bool :=
  if peek text = chr ']' then c = chr ']' || named text.tail c else named text c

variable {c : Int} {text : List Int}

theorem mem_between {first last : Int} : c ∈ between first last ↔ first < c ∧ c ≤ last := by
  unfold between
  rw [List.mem_map]
  constructor
  · rintro ⟨k, inside, rfl⟩
    have below := List.mem_range.mp inside
    omega
  · rintro ⟨above, below⟩
    refine ⟨(c - first - 1).toNat, List.mem_range.mpr ?_, ?_⟩
    · omega
    · omega

theorem markAll_iff {marks : List Int} : markAll marks c = true ↔ c ∈ marks ∧ InTable c := by
  have along : ∀ (table : Table), marks.foldl (fun table i => mark i table) table c = true ↔
      (c ∈ marks ∧ InTable c) ∨ table c = true := by
    induction marks with
    | nil => simp
    | cons i marks ih =>
      intro table
      rw [List.foldl_cons, ih, mem_cons, mark, Bool.or_eq_true, decide_eq_true_eq]
      constructor
      · rintro (⟨later, inside⟩ | ⟨rfl, inside⟩ | before)
        · exact .inl ⟨.inr later, inside⟩
        · exact .inl ⟨.inl rfl, inside⟩
        · exact .inr before
      · rintro (⟨rfl | later, inside⟩ | before)
        · exact .inr (.inl ⟨rfl, inside⟩)
        · exact .inl ⟨later, inside⟩
        · exact .inr (.inr before)
  unfold markAll
  rw [along]
  simp

theorem named_cons {a : Int} (plain : text.head? ≠ some (chr '-')) (c : Int) :
    named (a :: text) c = (decide (c = a) || named text c) := by
  match text, plain with
  | [], _ => simp [named]
  | [d], _ => simp [named]
  | d :: b :: rest, plain =>
    have other : d ≠ chr '-' := fun same => plain (congrArg some same)
    rw [named, if_neg other]

theorem takeWhile_head {d : Int} (text : List Int) (other : d ≠ chr '-') :
    ((d :: text).takeWhile inText).head? ≠ some (chr '-') := by
  cases inside : inText d with
  | true =>
    rw [takeWhile_cons_of_pos inside]
    exact fun same => other (Option.some.inj same)
  | false =>
    rw [List.takeWhile_cons_of_neg (by simp [inside])]
    exact nofun

theorem inText_iff : inText c = true ↔ ¬(c = 0 ∨ c = chr ']') := by
  simp [inText]

theorem dash_inText : inText (chr '-') = true := by decide

theorem inText_ends {a : Int} (ends : a = 0 ∨ a = chr ']') : inText a = false :=
  Bool.eq_false_iff.mpr fun inside => inText_iff.mp inside ends

/-- Just the characters that the text names are marked. -/
theorem scanLoop_spec (format : List Int) :
    (scanLoop format).2 = format.dropWhile inText ∧
      ∀ c, c ∈ (scanLoop format).1 ↔ named (format.takeWhile inText) c = true := by
  induction format using scanLoop.induct with
  | case1 => exact ⟨rfl, fun c => by simp [scanLoop, named]⟩
  | case2 a ends => simp [scanLoop, ends, inText_ends ends, named]
  | case3 a more => simp [scanLoop, more, inText_iff.mpr more, named]
  | case4 a d ends => simp [scanLoop, ends, inText_ends ends, named]
  | case5 a more => simp [scanLoop, more, inText_iff.mpr more, dash_inText, named]
  | case6 a d more other marks rest same ih =>
    have inside := inText_iff.mpr more
    rw [scanLoop, if_neg more, if_neg other, dropWhile_cons_of_pos inside,
      takeWhile_cons_of_pos inside]
    refine ⟨ih.1, fun c => ?_⟩
    rw [named_cons (takeWhile_head [] other), mem_cons, ih.2, Bool.or_eq_true,
      decide_eq_true_eq]
  | case7 a d b rest ends => simp [scanLoop, ends, inText_ends ends, named]
  | case8 a b rest more range marks rest' same ih =>
    have inside := inText_iff.mpr more
    have inside' : inText b = true := inText_iff.mpr (not_or.mpr ⟨range.1, range.2.1⟩)
    rw [scanLoop, if_neg more, if_pos rfl, if_pos range, dropWhile_cons_of_pos inside,
      takeWhile_cons_of_pos inside, dropWhile_cons_of_pos dash_inText,
      takeWhile_cons_of_pos dash_inText, dropWhile_cons_of_pos inside',
      takeWhile_cons_of_pos inside']
    refine ⟨ih.1, fun c => ?_⟩
    rw [named, if_pos rfl, if_pos range.2.2]
    change c ∈ a :: between a b ++ (scanLoop rest).1 ↔ _
    rw [List.cons_append, mem_cons, List.mem_append, mem_between, ih.2, Bool.or_eq_true,
      decide_eq_true_eq, ← or_assoc]
    exact or_congr_left (by omega)
  | case9 a b rest more noRange marks rest' same ih =>
    have inside := inText_iff.mpr more
    rw [scanLoop, if_neg more, if_pos rfl, if_neg noRange, dropWhile_cons_of_pos inside,
      takeWhile_cons_of_pos inside, dropWhile_cons_of_pos dash_inText,
      takeWhile_cons_of_pos dash_inText]
    refine ⟨ih.1, fun c => ?_⟩
    rw [mem_cons, mem_cons, ih.2]
    cases last : inText b with
    | true =>
      have further := not_or.mp (inText_iff.mp last)
      have falling : ¬a ≤ b := fun order => noRange ⟨further.1, further.2, order⟩
      rw [takeWhile_cons_of_pos last, named, if_pos rfl, if_neg falling, Bool.or_eq_true,
        decide_eq_true_eq, or_assoc]
    | false =>
      rw [List.takeWhile_cons_of_neg (by simp [last])]
      simp [named]
  | case10 a d b rest more other marks rest' same ih =>
    have inside := inText_iff.mpr more
    rw [scanLoop, if_neg more, if_neg other, dropWhile_cons_of_pos inside,
      takeWhile_cons_of_pos inside]
    refine ⟨ih.1, fun c => ?_⟩
    rw [named_cons (takeWhile_head (b :: rest) other), mem_cons, ih.2, Bool.or_eq_true,
      decide_eq_true_eq]

theorem inTable_of_named (inside : ∀ a ∈ text, InTable a) (member : named text c = true) :
    InTable c := by
  induction text, c using named.induct with
  | case1 c => cases member
  | case2 a c => exact inside c (by simpa [named] using member)
  | case3 a d c => exact inside c (by simpa [named] using member)
  | case4 a b rest c order ih =>
    rw [named, if_pos rfl, if_pos order, Bool.or_eq_true, decide_eq_true_eq] at member
    rcases member with between | later
    · have low := inside a (by simp)
      have high := inside b (by simp)
      exact ⟨Int.le_trans low.1 between.1, Int.lt_of_le_of_lt between.2 high.2⟩
    · exact ih (fun e member => inside e (by simp [member])) later
  | case5 a b rest c falling ih =>
    rw [named, if_pos rfl, if_neg falling, Bool.or_eq_true, decide_eq_true_eq] at member
    rcases member with (rfl | rfl) | later
    · exact inside c (by simp)
    · exact inside _ (by simp)
    · exact ih (fun e member => inside e (by simp [mem_cons.mp member])) later
  | case6 a d b rest c plain ih =>
    rw [named, if_neg plain, Bool.or_eq_true, decide_eq_true_eq] at member
    rcases member with rfl | later
    · exact inside c (by simp)
    · exact ih (fun e member => inside e (List.mem_cons_of_mem a member)) later

theorem named_of_mem (member : c ∈ text) : named text c = true ∨ c = chr '-' := by
  induction text, c using named.induct with
  | case1 c => cases member
  | case2 a c => exact .inl (by simpa [named] using member)
  | case3 a d c => exact .inl (by simpa [named] using member)
  | case4 a b rest c order ih =>
    rw [named, if_pos rfl, if_pos order, Bool.or_eq_true, decide_eq_true_eq]
    simp only [mem_cons] at member
    rcases member with rfl | rfl | rfl | later
    · exact .inl (.inl ⟨Int.le_refl c, order⟩)
    · exact .inr rfl
    · exact .inl (.inl ⟨order, Int.le_refl c⟩)
    · exact (ih later).imp_left .inr
  | case5 a b rest c falling ih =>
    rw [named, if_pos rfl, if_neg falling, Bool.or_eq_true, decide_eq_true_eq]
    rcases mem_cons.mp member with rfl | member
    · exact .inl (.inl (.inl rfl))
    · rcases mem_cons.mp member with rfl | later
      · exact .inr rfl
      · exact (ih later).imp_left .inr
  | case6 a d b rest c plain ih =>
    rw [named, if_neg plain, Bool.or_eq_true, decide_eq_true_eq]
    rcases mem_cons.mp member with rfl | later
    · exact .inl (.inl rfl)
    · exact (ih later).imp_left .inr

/-- What `readSet` answers is the set, and it marks inside the table just if the characters of the text
lie in it. -/
theorem readSet_spec (format : List Int) :
    (readSet format).1 = (setOf format).1 ∧ (readSet format).2.2 = (setOf format).2.2 ∧
      (∀ c, c ∈ (readSet format).2.1 ↔ inSet (setOf format).2.1 c = true) ∧
      ((∀ c ∈ (readSet format).2.1, InTable c) ↔ ∀ a ∈ (setOf format).2.1, InTable a) := by
  have marked : ∀ text : List Int, (∀ c ∈ (scanLoop text).1, InTable c) ↔
      ∀ a ∈ text.takeWhile inText, InTable a := by
    intro text
    constructor
    · intro inside a member
      rcases named_of_mem member with set | rfl
      · exact inside a (((scanLoop_spec text).2 a).mpr set)
      · exact ⟨by decide, by decide⟩
    · exact fun inside c member => inTable_of_named inside (((scanLoop_spec text).2 c).mp member)
  have apart : ∀ text : List Int, peek text ≠ chr ']' → peek (text.takeWhile inText) ≠ chr ']' := by
    intro text other
    cases text with
    | nil => exact other
    | cons d rest =>
      cases inside : inText d with
      | true => rwa [takeWhile_cons_of_pos inside]
      | false =>
        rw [List.takeWhile_cons_of_neg (by simp [inside])]
        decide
  unfold readSet setOf
  dsimp only
  generalize (if decide (peek format = chr '^') then format.tail else format) = text
  by_cases bracket : peek text = chr ']'
  · rw [if_pos bracket, if_pos bracket]
    obtain ⟨after, members⟩ := scanLoop_spec text.tail
    refine ⟨rfl, after, fun c => ?_, ?_⟩
    · change c ∈ chr ']' :: (scanLoop text.tail).1 ↔ _
      rw [mem_cons, members]
      simp [inSet, peek]
    · change (∀ c ∈ chr ']' :: (scanLoop text.tail).1, InTable c) ↔ _
      rw [List.forall_mem_cons, List.forall_mem_cons, marked]
  · rw [if_neg bracket, if_neg bracket]
    obtain ⟨after, members⟩ := scanLoop_spec text
    refine ⟨rfl, after, fun c => ?_, marked text⟩
    rw [members]
    unfold inSet
    rw [if_neg (apart text bracket)]

end AckFormal.Ansi.Doscan
