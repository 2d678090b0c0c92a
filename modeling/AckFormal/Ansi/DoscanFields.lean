import AckFormal.Ansi.Doscan

/-!
# The fields of formatted input

What a numeral is, as a division of a text into the numeral and the rest, and the proof that
`o_collect` and `f_collect` take just that from the characters within the width of the field.
-/

namespace AckFormal.Ansi.Doscan

open Lib.Lookahead

variable (m : Machine)

/-! ## Numerals -/

def splitSign : List Int → List Int × List Int
  | c :: rest => if isSign c then ([c], rest) else ([], c :: rest)
  | [] => ([], [])

/-- The base that the first digits decide about, these digits and the rest. -/
def splitPrefix (type : Int) : List Int → Nat × List Int × List Int
  | [] => (if type = chr 'i' then 10 else startBase type, [], [])
  | c :: rest =>
    if c = chr '0' ∧ startBase type = 16 then
      match rest with
      | [] => (if type = chr 'i' then 8 else 16, [c], [])
      | d :: rest =>
        if d = chr 'x' ∨ d = chr 'X' then (16, [c, d], rest)
        else (if type = chr 'i' then 8 else 16, [c], d :: rest)
    else (if type = chr 'i' then 10 else startBase type, [], c :: rest)

def numeral (type : Int) (text : List Int) : List Int × List Int :=
  let (sign, text) := splitSign text
  let (base, digits, text) := splitPrefix type text
  (sign ++ digits ++ text.takeWhile (inBase m base), text.dropWhile (inBase m base))

def splitMantissa (text : List Int) : List Int × List Int :=
  match text.dropWhile isdigit with
  | [] => (text.takeWhile isdigit, [])
  | c :: rest =>
    if c = chr '.' then
      (text.takeWhile isdigit ++ c :: rest.takeWhile isdigit, rest.dropWhile isdigit)
    else (text.takeWhile isdigit, c :: rest)

/-- What begins as a number in floating point, and whether it is one. -/
def floating (text : List Int) : Bool × List Int × List Int :=
  let (sign, text) := splitSign text
  let (mantissa, text) := splitMantissa text
  if (sign ++ mantissa).countP isdigit = 0 then (false, sign ++ mantissa, text)
  else match text with
  | [] => (true, sign ++ mantissa, [])
  | c :: rest =>
    if c = chr 'e' ∨ c = chr 'E' then
      let (sign', text) := splitSign rest
      (text.takeWhile isdigit ≠ [], sign ++ mantissa ++ c :: sign' ++ text.takeWhile isdigit,
        text.dropWhile isdigit)
    else (true, sign ++ mantissa, c :: rest)

/-! ## What is right -/

/-- An access inside its array; a number of characters that is the number consumed. -/
def right (consumed : Int) : Act → Prop
  | .put i _ => i < NUMLEN
  | .table i => 0 ≤ i ∧ i < NR_CHARS
  | .count _ value => value = consumed
  | .assign _ _ => True

/-- `taken` was collected on the way from `f` to `g`, and `rest` can still be. -/
structure Collected (base : Int) (excess : Nat) (f g : Collect) (taken rest : List Int) : Prop where
  ready : g.Ready EOF base excess
  split : f.ahead = taken ++ rest
  text : g.text = f.text ++ taken
  ahead : g.ahead = rest
  acts : f.text.length + f.ahead.length ≤ NUMLEN →
    (Acts right g.reader.log ↔ Acts right f.reader.log)

variable {m} {base : Int} {excess : Nat} {f g h : Collect} {taken taken' rest rest' : List Int}
  {c : Int}

theorem Collected.refl (ready : f.Ready EOF base excess) : Collected base excess f f [] f.ahead :=
  ⟨ready, rfl, (List.append_nil _).symm, rfl, fun _ => Iff.rfl⟩

theorem Collected.trans (first : Collected base excess f g taken rest)
    (second : Collected base excess g h taken' rest') :
    Collected base excess f h (taken ++ taken') rest' where
  ready := second.ready
  split := by rw [first.split, ← first.ahead, second.split, List.append_assoc]
  text := by rw [second.text, first.text, List.append_assoc]
  ahead := second.ahead
  acts room := by
    have same : g.text.length + g.ahead.length ≤ NUMLEN := by
      rw [first.split] at room
      rw [first.text, first.ahead, List.length_append]
      rw [List.length_append] at room
      omega
    exact (second.acts same).trans (first.acts room)

theorem Collected.of_eq (collected : Collected base excess f g taken rest) (same : taken = taken')
    (same' : rest = rest') : Collected base excess f g taken' rest' := same ▸ same' ▸ collected

theorem ahead_of_test (ok : Int → Bool) (ready : f.Ready EOF base excess) (refuses : ok EOF = false)
    (test : f.width ≠ 0 ∧ ok f.c = true) : ∃ rest, f.ahead = f.c :: rest ∧ ok f.c = true := by
  cases ahead : f.ahead with
  | nil =>
    have ended := (ready.ended test.1 (Field.ahead_nil ready ahead)).1
    rw [ended, refuses] at test
    exact absurd test.2 Bool.false_ne_true
  | cons c rest =>
    rw [ready.here c (Field.ahead_cons ahead).2.1]
    exact ⟨rest, rfl, test.2⟩

theorem test_of_ahead (ready : f.Ready EOF base excess) (ahead : f.ahead = c :: rest) :
    f.width ≠ 0 ∧ f.c = c :=
  ⟨(Field.ahead_cons ahead).1, (ready.here c (Field.ahead_cons ahead).2.1).symm⟩

theorem keep_collected (ready : f.Ready EOF base excess) (ahead : f.ahead = c :: rest) :
    Collected base excess f (keep f) [c] rest := by
  obtain ⟨next, rest', text, -⟩ := (ready.acts [.put f.text.length f.c]).advance
    ((Field.acts_ahead _ f).trans ahead)
  refine ⟨next, ahead, text, rest', fun room => ?_⟩
  have inside : f.text.length < NUMLEN := by
    rw [ahead, List.length_cons] at room
    omega
  unfold keep
  rw [Field.advance_acts]
  exact (acts_acts _ _).trans ⟨And.left, fun acts => ⟨acts, by simpa [right] using inside⟩⟩

/-- When the width is used up, the character ahead is still the one kept last. -/
theorem keep_spent (spent : (keep f).width = 0) : (keep f).c = f.c := by
  unfold keep Field.advance at spent ⊢
  split
  · rfl
  · next more =>
      rw [if_neg more] at spent
      exact absurd spent more

theorem keepWhile_collected (ok : Int → Bool) (refuses : ok EOF = false)
    (ready : f.Ready EOF base excess) :
    Collected base excess f (keepWhile ok f) (f.ahead.takeWhile ok) (f.ahead.dropWhile ok) := by
  obtain ⟨next, text, ahead⟩ :=
    ready.gather (fun _ => []) (fun i c => [Act.put i c]) refuses (Nat.le_refl f.width)
  refine ⟨next, (List.takeWhile_append_dropWhile).symm, text, ahead, fun room => ?_⟩
  have silent : ∀ (n : Int) (c : Int), (∀ e ∈ ([] : List Act), right n e) ↔ True := by simp
  have puts : ∀ (n : Int) i (c : Int), i < NUMLEN → ∀ e ∈ [Act.put i c], right n e := by simp [right]
  have acts := ready.gather_acts right refuses rfl silent puts (Nat.le_refl f.width) room
  exact acts.trans (and_iff_left fun _ _ => trivial)

/-! ## The two functions -/

theorem keepSign_collected (some : f.width ≠ 0) (ready : f.Ready EOF base excess) :
    Collected base excess f (keepSign f) (splitSign f.ahead).1 (splitSign f.ahead).2 := by
  unfold keepSign
  cases sign : isSign f.c with
  | true =>
    obtain ⟨rest, ahead, test⟩ := ahead_of_test isSign ready rfl ⟨some, sign⟩
    rw [if_pos rfl, ahead, splitSign, if_pos test]
    exact keep_collected ready ahead
  | false =>
    refine (Collected.refl ready).of_eq ?_ ?_
    all_goals
      cases ahead : f.ahead with
      | nil => rfl
      | cons c rest =>
        rw [splitSign, if_neg]
        rw [← (test_of_ahead ready ahead).2, sign]
        exact Bool.false_ne_true

/-- The first digits are collected, and the base is the one they decide about. -/
theorem keepPrefix_collected (type : Int) (ready : f.Ready EOF base excess) :
    (keepPrefix type f).1 = (splitPrefix type f.ahead).1 ∧
      Collected base excess f (keepPrefix type f).2 (splitPrefix type f.ahead).2.1
        (splitPrefix type f.ahead).2.2 := by
  unfold keepPrefix
  by_cases zero : f.width ≠ 0 ∧ f.c = chr '0' ∧ startBase type = 16
  · rw [if_pos zero]
    obtain ⟨some, digit, sixteen⟩ := zero
    obtain ⟨rest, ahead, -⟩ := ahead_of_test (fun c => c = chr '0') ready (by decide)
      ⟨some, decide_eq_true digit⟩
    have first := keep_collected ready ahead
    rw [ahead, splitPrefix.eq_def]
    dsimp only
    rw [if_pos (show f.c = chr '0' ∧ startBase type = 16 from ⟨digit, sixteen⟩)]
    by_cases plain : (keep f).c ≠ chr 'x' ∧ (keep f).c ≠ chr 'X'
    · rw [if_pos plain]
      cases rest with
      | nil => exact ⟨rfl, first⟩
      | cons d rest =>
        have next := (test_of_ahead first.ready first.ahead).2
        rw [next] at plain
        have other : ¬(d = chr 'x' ∨ d = chr 'X') := not_or.mpr plain
        dsimp only
        rw [if_neg other]
        exact ⟨rfl, first⟩
    · rw [if_neg plain]
      have letter : (keep f).c = chr 'x' ∨ (keep f).c = chr 'X' := by
        by_contra neither
        exact plain (not_or.mp neither)
      have more : (keep f).width ≠ 0 := by
        intro spent
        rw [keep_spent spent, digit] at letter
        exact absurd letter (by decide)
      rw [if_pos more]
      obtain ⟨rest', ahead', -⟩ := ahead_of_test (fun c => c = chr 'x' ∨ c = chr 'X') first.ready
        (by decide) ⟨more, decide_eq_true letter⟩
      have same : rest = (keep f).c :: rest' := first.ahead.symm.trans ahead'
      rw [same]
      dsimp only
      rw [if_pos letter]
      exact ⟨rfl, first.trans (keep_collected first.ready ahead')⟩
  · rw [if_neg zero]
    have none : splitPrefix type f.ahead =
        (if type = chr 'i' then 10 else startBase type, [], f.ahead) := by
      cases ahead : f.ahead with
      | nil => rfl
      | cons c rest =>
        obtain ⟨some, here⟩ := test_of_ahead ready ahead
        rw [splitPrefix.eq_def]
        dsimp only
        rw [if_neg]
        rintro ⟨digit, sixteen⟩
        exact zero ⟨some, here.trans digit, sixteen⟩
    rw [none]
    exact ⟨rfl, Collected.refl ready⟩

theorem inBase_EOF (b : Nat) : inBase m b EOF = false := by
  simp [inBase, isdigit, isxdigit, ctype, EOF]

/-- `o_collect` takes the numeral that the width of the field lets it see. -/
theorem oCollect_collected (type : Int) (some : f.width ≠ 0) (ready : f.Ready EOF base excess) :
    Collected base excess f (oCollect m type f).2 (numeral m type f.ahead).1
      (numeral m type f.ahead).2 := by
  have sign := keepSign_collected some ready
  obtain ⟨same, digits⟩ := keepPrefix_collected type sign.ready
  have last := keepWhile_collected _ (inBase_EOF (m := m) (keepPrefix type (keepSign f)).1) digits.ready
  rw [sign.ahead] at same digits
  have all := (sign.trans digits).trans last
  rw [digits.ahead] at all
  unfold oCollect numeral
  dsimp only
  rw [← same]
  exact all

theorem keepMantissa_collected (ready : f.Ready EOF base excess) :
    Collected base excess f (keepMantissa f) (splitMantissa f.ahead).1 (splitMantissa f.ahead).2 := by
  have digits := keepWhile_collected isdigit (by decide) ready
  unfold keepMantissa splitMantissa
  by_cases point : (keepWhile isdigit f).width ≠ 0 ∧ (keepWhile isdigit f).c = chr '.'
  · obtain ⟨rest, ahead, -⟩ := ahead_of_test (fun c => c = chr '.') digits.ready (by decide)
      ⟨point.1, decide_eq_true point.2⟩
    have next := keep_collected digits.ready ahead
    have more := keepWhile_collected isdigit (by decide) next.ready
    have all := (digits.trans next).trans more
    rw [next.ahead] at all
    have same : f.ahead.dropWhile isdigit = (keepWhile isdigit f).c :: rest :=
      digits.ahead.symm.trans ahead
    rw [if_pos point, same]
    dsimp only
    rw [if_pos point.2]
    exact all.of_eq (by simp) rfl
  · rw [if_neg point]
    cases ahead : f.ahead.dropWhile isdigit with
    | nil => exact digits.of_eq rfl ahead
    | cons c rest =>
      obtain ⟨some, here⟩ := test_of_ahead digits.ready (digits.ahead.trans ahead)
      dsimp only
      rw [if_neg fun same => point ⟨some, here.trans same⟩]
      exact digits.of_eq rfl ahead

theorem keepExponent_collected (ready : f.Ready EOF base excess) (ahead : f.ahead = c :: rest) :
    (keepExponent f).1 = decide ((splitSign rest).2.takeWhile isdigit ≠ []) ∧
      Collected base excess f (keepExponent f).2
        (c :: (splitSign rest).1 ++ (splitSign rest).2.takeWhile isdigit)
        ((splitSign rest).2.dropWhile isdigit) := by
  have first := keep_collected ready ahead
  have sign : Collected base excess (keep f)
      (if (keep f).width ≠ 0 ∧ isSign (keep f).c then keep (keep f) else keep f)
      (splitSign rest).1 (splitSign rest).2 := by
    by_cases more : (keep f).width ≠ 0
    · have sign := keepSign_collected more first.ready
      rw [first.ahead] at sign
      simpa [more, keepSign] using sign
    · have none : rest = [] := first.ahead.symm.trans (Field.ahead_spent (not_not.mp more))
      rw [if_neg fun both => more both.1, none]
      exact (Collected.refl first.ready).of_eq rfl (first.ahead.trans none)
  have digits := keepWhile_collected isdigit (by decide) sign.ready
  rw [sign.ahead] at digits
  refine ⟨?_, ((first.trans sign).trans digits).of_eq (by simp) rfl⟩
  unfold keepExponent
  dsimp only
  rw [digits.text, List.length_append]
  refine decide_eq_decide.mpr ?_
  rw [← List.length_pos_iff]
  omega

/-- The characters of a number are collected, as many as the width allows. -/
theorem fCollect_collected (some : f.width ≠ 0) (empty : f.text = [])
    (ready : f.Ready EOF base excess) :
    (fCollect f).1 = (floating f.ahead).1 ∧
      Collected base excess f (fCollect f).2 (floating f.ahead).2.1 (floating f.ahead).2.2 := by
  have sign := keepSign_collected some ready
  have mantissa := keepMantissa_collected sign.ready
  rw [sign.ahead] at mantissa
  have all := sign.trans mantissa
  have text : (keepMantissa (keepSign f)).text =
      (splitSign f.ahead).1 ++ (splitMantissa (splitSign f.ahead).2).1 := by
    rw [all.text, empty, List.nil_append]
  unfold fCollect floating
  dsimp only
  rw [text]
  split
  · exact ⟨rfl, all⟩
  · by_cases letter : (keepMantissa (keepSign f)).width ≠ 0 ∧
        ((keepMantissa (keepSign f)).c = chr 'e' ∨ (keepMantissa (keepSign f)).c = chr 'E')
    · obtain ⟨rest, ahead, -⟩ := ahead_of_test (fun c => c = chr 'e' ∨ c = chr 'E') all.ready
        (by decide) ⟨letter.1, decide_eq_true letter.2⟩
      obtain ⟨whole, exponent⟩ := keepExponent_collected all.ready ahead
      have same := all.ahead.symm.trans ahead
      rw [if_pos letter, same]
      dsimp only
      rw [if_pos letter.2]
      exact ⟨whole, (all.trans exponent).of_eq (by simp) rfl⟩
    · rw [if_neg letter]
      cases ahead : (splitMantissa (splitSign f.ahead).2).2 with
      | nil => exact ⟨rfl, all.of_eq rfl ahead⟩
      | cons c rest =>
        obtain ⟨more, here⟩ := test_of_ahead all.ready (all.ahead.trans ahead)
        dsimp only
        rw [if_neg fun same => letter ⟨more, by rw [here]; exact same⟩]
        exact ⟨rfl, all.of_eq rfl ahead⟩

end AckFormal.Ansi.Doscan
