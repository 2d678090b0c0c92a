import AckFormal.Mcg.Data
import AckFormal.As.Directives

/-!
# Data from mcg to the assembler

The text that `data_block` writes is scanned and assembled again.  A backslash
is printable and different from the double quote, so `istext` lets it into a
quoted run, where the scanner takes it as the start of an escape.  Every other
byte comes back unchanged.
-/

namespace AckFormal.Pipeline.DataText

open As Mcg.Data

/-- What one scan of a text makes of the bytes it was written for: it never
gives more bytes, gives them back when there is no backslash among them, and
loses a byte or reports an error when there is one. -/
structure ReadAs (bytes : List UInt8) (errors : List SError) (data : List UInt8) : Prop where
  length_le : bytes.length ≤ data.length
  plain : 0x5c ∉ data → bytes = data ∧ errors = []
  lossy : 0x5c ∈ data → errors ≠ [] ∨ bytes.length < data.length

namespace ReadAs

variable {data : List UInt8}

theorem refl (plain : 0x5c ∉ data) : ReadAs data [] data :=
  ⟨Nat.le_refl _, fun _ => ⟨rfl, rfl⟩, fun escape => absurd escape plain⟩

theorem append {bytes more rest : List UInt8} {errors others : List SError}
    (first : ReadAs bytes errors data) (second : ReadAs more others rest) :
    ReadAs (bytes ++ more) (errors ++ others) (data ++ rest) := by
  refine ⟨?_, ?_, ?_⟩
  · simp only [List.length_append]
    exact Nat.add_le_add first.length_le second.length_le
  · intro plain
    rw [List.mem_append, not_or] at plain
    obtain ⟨sameBytes, noErrors⟩ := first.plain plain.1
    obtain ⟨sameMore, noOthers⟩ := second.plain plain.2
    exact ⟨by rw [sameBytes, sameMore], by rw [noErrors, noOthers]; rfl⟩
  · intro escape
    have firstLe := first.length_le
    have secondLe := second.length_le
    simp only [List.length_append]
    rcases List.mem_append.mp escape with inFirst | inSecond
    · rcases first.lossy inFirst with reported | shorter
      · exact Or.inl (by simp [reported])
      · exact Or.inr (by omega)
    · rcases second.lossy inSecond with reported | shorter
      · exact Or.inl (by simp [reported])
      · exact Or.inr (by omega)

/-- The bytes come back without an error exactly when there is no backslash. -/
theorem exact_iff {bytes : List UInt8} {errors : List SError} (read : ReadAs bytes errors data) :
    (bytes = data ∧ errors = []) ↔ 0x5c ∉ data := by
  constructor
  · rintro ⟨same, noErrors⟩ escape
    rcases read.lossy escape with reported | shorter
    · exact reported noErrors
    · rw [same] at shorter
      exact Nat.lt_irrefl _ shorter
  · exact read.plain

end ReadAs

/-! ## Quoted runs -/

variable {c : UInt8} {order : Order} {text data : List UInt8}

theorem istext_bounds (text : istext c = true) : c < 0x80 ∧ ¬(c = 0x0a ∨ c = 0) ∧ c ≠ 0x22 := by
  have facts : ∀ n : Fin 256, istext (UInt8.ofNat n) = true →
      UInt8.ofNat n < 0x80 ∧ ¬(UInt8.ofNat n = 0x0a ∨ UInt8.ofNat n = 0) ∧
        UInt8.ofNat n ≠ 0x22 := by decide +kernel
  have known := facts ⟨c.toNat, c.toNat_lt⟩
  simp only [UInt8.ofNat_toNat] at known
  exact known text

theorem nextchar_ascii (ascii : c < 0x80) (rest : List UInt8) :
    nextchar (c :: rest) = .ok (c, rest) := by
  rw [nextchar, if_pos ascii]

theorem instring_newline (after buf : List UInt8) :
    instring 0x22 (0x0a :: after) buf =
      .ok { token := .string buf, rest := 0x0a :: after, errors := [.nonTerminatedString] } := by
  rw [instring_eq, nextchar_ascii (by decide)]
  rfl

theorem instring_quote (after buf : List UInt8) :
    instring 0x22 (0x22 :: after) buf = .ok { token := .string buf, rest := after } := by
  rw [instring_eq, nextchar_ascii (by decide)]
  rfl

theorem instring_text (text : istext c = true) (notEscape : c ≠ 0x5c) (rest buf : List UInt8) :
    instring 0x22 (c :: rest) buf = instring 0x22 rest (buf ++ [c]) := by
  obtain ⟨ascii, notStop, notQuote⟩ := istext_bounds text
  rw [instring_eq, nextchar_ascii ascii]
  dsimp only
  rw [if_neg notStop, if_neg notQuote, if_neg notEscape]

theorem instring_escape {after rest : List UInt8} {r : UInt8}
    (escape : inescape after = .ok (r, rest)) (buf : List UInt8) :
    instring 0x22 (0x5c :: after) buf = instring 0x22 rest (buf ++ [r]) := by
  rw [instring_eq, nextchar_ascii (by decide)]
  dsimp only
  rw [if_neg (by decide), if_neg (by decide), if_pos rfl, escape]

/-- An escape inside a run takes at least one more character of the run, and
never the quote that ends it. -/
theorem inescape_text (d : UInt8) (tail after : List UInt8)
    (text : ∀ c ∈ d :: tail, istext c = true) :
    ∃ r left, inescape (d :: tail ++ 0x22 :: after) = .ok (r, left ++ 0x22 :: after) ∧
      left <:+ tail := by
  have asciiHead : d < 0x80 := (istext_bounds (text d (by simp))).1
  unfold inescape
  simp only [List.cons_append, nextchar_ascii asciiHead]
  split
  · -- an octal digit; look at up to two more characters, the quote included
    cases tail with
    | nil => exact ⟨d - 0x30, [], by simp [nextchar, isoctal], List.suffix_refl _⟩
    | cons e more =>
      have asciiNext : e < 0x80 := (istext_bounds (text e (by simp))).1
      simp only [List.cons_append, nextchar_ascii asciiNext]
      split
      · cases more with
        | nil =>
          exact ⟨(d - 0x30) * 8 + (e - 0x30), [], by simp [nextchar, isoctal], List.nil_suffix⟩
        | cons f last =>
          have asciiLast : f < 0x80 := (istext_bounds (text f (by simp))).1
          simp only [List.cons_append, nextchar_ascii asciiLast]
          split
          · exact ⟨_, last, rfl, (List.suffix_cons f last).trans (List.suffix_cons e _)⟩
          · exact ⟨_, f :: last, rfl, List.suffix_cons e _⟩
      · exact ⟨_, e :: more, rfl, List.suffix_refl _⟩
  · repeat' split
    all_goals exact ⟨_, tail, rfl, List.suffix_refl _⟩

/-- The characters between the quotes come back, with their errors. -/
theorem instring_run (run after buf : List UInt8) (text : ∀ c ∈ run, istext c = true) :
    ∃ string errors,
      instring 0x22 (run ++ 0x22 :: 0x0a :: after) buf =
        .ok { token := .string (buf ++ string), rest := 0x0a :: after, errors := errors } ∧
      ReadAs string errors run := by
  induction length : run.length using Nat.strong_induction_on generalizing run buf with
  | _ n ih =>
    subst length
    cases run with
    | nil => exact ⟨[], [], by simp [instring_quote], ReadAs.refl (by simp)⟩
    | cons c tail =>
      by_cases escape : c = 0x5c
      · subst escape
        cases tail with
        | nil =>
          -- the escape swallows the closing quote and runs into the newline
          refine ⟨[0x22], [.nonTerminatedString], ?_, ?_⟩
          · have swallowed : inescape (0x22 :: 0x0a :: after) = .ok (0x22, 0x0a :: after) := by
              simp [inescape, nextchar, isoctal]
            simp only [List.singleton_append, instring_escape swallowed, instring_newline]
          · exact ⟨Nat.le_refl _, fun plain => absurd List.mem_cons_self plain,
              fun _ => Or.inl (by simp)⟩
        | cons d more =>
          obtain ⟨r, left, read, suffix⟩ := inescape_text d more (0x0a :: after)
            (fun x member => text x (List.mem_cons_of_mem _ member))
          have leftLe := suffix.length_le
          obtain ⟨string, errors, scanned, readLeft⟩ :=
            ih left.length (by simp only [List.length_cons]; omega) left (buf ++ [r])
              (fun x member => text x
                (List.mem_cons_of_mem _ (List.mem_cons_of_mem _ (suffix.mem member)))) rfl
          refine ⟨r :: string, errors, ?_, ?_⟩
          · rw [List.cons_append, instring_escape read, scanned, List.append_assoc]
            rfl
          · have shorter : (r :: string).length < (0x5c :: d :: more).length := by
              have := readLeft.length_le
              simp only [List.length_cons]
              omega
            exact ⟨shorter.le, fun plain => absurd List.mem_cons_self plain,
              fun _ => Or.inr shorter⟩
      · obtain ⟨string, errors, scanned, readTail⟩ :=
          ih tail.length (by simp) tail (buf ++ [c])
            (fun x member => text x (List.mem_cons_of_mem _ member)) rfl
        refine ⟨c :: string, errors, ?_, ?_⟩
        · rw [List.cons_append, instring_text (text c List.mem_cons_self) escape, scanned,
            List.append_assoc]
          rfl
        · have single : ReadAs [c] [] [c] :=
            ReadAs.refl (by simpa using fun same => escape same.symm)
          exact single.append readTail

theorem tokens_asciiLine (run after : List UInt8) (nonempty : run ≠ [])
    (text : ∀ c ∈ run, istext c = true) :
    ∃ string errors,
      tokens (asciiLine run ++ after) =
        prepend [.ascii false, .string string, .char 0x0a] errors (tokens after) ∧
      ReadAs string errors run := by
  obtain ⟨string, errors, scanned, read⟩ := instring_run run after [] text
  refine ⟨string, errors, ?_, read⟩
  have opening : yylex (asciiOpen ++ (run ++ 0x22 :: 0x0a :: after)) =
      .ok (some { token := .ascii false,
                  rest := 0x20 :: 0x22 :: (run ++ 0x22 :: 0x0a :: after) }) := rfl
  have quoted : yylex (0x20 :: 0x22 :: (run ++ 0x22 :: 0x0a :: after)) =
      .ok (some { token := .string string, rest := 0x0a :: after, errors := errors }) := by
    change (instring 0x22 (run ++ 0x22 :: 0x0a :: after) []).map some = _
    rw [scanned]
    rfl
  have newline : yylex (0x0a :: after) = .ok (some { token := .char 0x0a, rest := after }) := rfl
  have shape : asciiLine run ++ after = asciiOpen ++ (run ++ 0x22 :: 0x0a :: after) := by
    simp [asciiLine, nonempty]
  rw [shape, tokens_of_yylex opening, tokens_of_yylex quoted, tokens_of_yylex newline]
  simp

/-! ## Lists of numbers -/

theorem hexDigit_facts (n : UInt8) (small : n < 16) :
    hexDigit n < 0x80 ∧ hexDigit n ≠ 0x2e ∧ isalnum (hexDigit n) = true ∧
      tolower (hexDigit n) = hexDigit n ∧ digitOf (hexDigit n) = n := by
  have facts : ∀ k : Fin 16,
      hexDigit (UInt8.ofNat k) < 0x80 ∧ hexDigit (UInt8.ofNat k) ≠ 0x2e ∧
        isalnum (hexDigit (UInt8.ofNat k)) = true ∧
        tolower (hexDigit (UInt8.ofNat k)) = hexDigit (UInt8.ofNat k) ∧
        digitOf (hexDigit (UInt8.ofNat k)) = UInt8.ofNat k := by decide +kernel
  have known := facts ⟨n.toNat, by simpa using UInt8.lt_iff_toNat_lt.mp small⟩
  simpa only [UInt8.ofNat_toNat] using known

theorem numberLoop_alnum {next : UInt8} (budget : Nat) (after num : List UInt8)
    (ascii : next < 0x80) (notDot : next ≠ 0x2e) (alnum : isalnum next = true) :
    numberLoop (budget + 1) c (next :: after) num =
      numberLoop budget next after (num ++ [tolower c]) := by
  rw [numberLoop, nextchar_ascii ascii]
  simp only [if_neg notDot, alnum, if_true]

theorem numberLoop_stop {stop : UInt8} (budget : Nat) (after num : List UInt8) (ascii : stop < 0x80)
    (notDot : stop ≠ 0x2e) (notAlnum : isalnum stop = false) :
    numberLoop (budget + 1) c (stop :: after) num =
      .ok (finishNumber (num ++ [tolower c]) (stop :: after)) := by
  rw [numberLoop, nextchar_ascii ascii]
  simp only [if_neg notDot, notAlnum, Bool.false_eq_true, if_false]

/-- A number written by `writehex` is scanned to the byte it was written for,
whatever character outside numbers follows it. -/
theorem yylex_writehex (byte stop : UInt8) (after : List UInt8) (ascii : stop < 0x80)
    (notDot : stop ≠ 0x2e) (notAlnum : isalnum stop = false) :
    yylex (0x20 :: (writehex byte ++ stop :: after)) =
      .ok (some { token := .number8 byte.toNat, rest := stop :: after }) := by
  have highSmall : byte / 16 < 16 := by
    rw [UInt8.lt_iff_toNat_lt, UInt8.toNat_div]
    have := byte.toNat_lt
    simp only [UInt8.reduceToNat]
    omega
  have lowSmall : byte % 16 < 16 := by
    exact Nat.mod_lt _ (by decide)
  obtain ⟨highAscii, highDot, highAlnum, highLower, highValue⟩ := hexDigit_facts _ highSmall
  obtain ⟨lowAscii, lowDot, lowAlnum, lowLower, lowValue⟩ := hexDigit_facts _ lowSmall
  have scanned : innumber 0x30 (0x78 :: hexDigit (byte / 16) :: hexDigit (byte % 16) ::
      stop :: after) = .ok (finishNumber [0x30, 0x78, hexDigit (byte / 16), hexDigit (byte % 16)]
        (stop :: after)) := by
    have x : tolower 0x78 = 0x78 := by decide
    have zero : tolower 0x30 = 0x30 := by decide
    rw [innumber, if_neg (by decide), numberLoop_alnum _ _ _ (by decide) (by decide) (by decide),
      numberLoop_alnum _ _ _ highAscii highDot highAlnum,
      numberLoop_alnum _ _ _ lowAscii lowDot lowAlnum,
      numberLoop_stop _ _ _ ascii notDot notAlnum, zero, x, highLower, lowLower]
    rfl
  have value : finishNumber [0x30, 0x78, hexDigit (byte / 16), hexDigit (byte % 16)]
      (stop :: after) = { token := .number8 byte.toNat, rest := stop :: after } := by
    have := byte.toNat_lt
    simp only [finishNumber, splitRadix, evalDigits, List.foldl_cons, List.foldl_nil, highValue,
      lowValue, UInt8.toNat_div, UInt8.toNat_mod, UInt8.reduceToNat]
    have high : ¬(16 ≤ byte.toNat / 16) := by omega
    simp [high]
    omega
  change (innumber 0x30 (0x78 :: hexDigit (byte / 16) :: hexDigit (byte % 16) ::
    stop :: after)).map some = _
  rw [scanned, value]
  rfl

def numberTokens : List UInt8 → List Token
  | [] => []
  | [byte] => [.number8 byte.toNat]
  | byte :: rest => .number8 byte.toNat :: .char 0x2c :: numberTokens rest

theorem tokens_hexTail (byte : UInt8) (rest after : List UInt8) :
    tokens (0x20 :: (writehex byte ++ (hexTail rest ++ 0x0a :: after))) =
      prepend (numberTokens (byte :: rest) ++ [.char 0x0a]) [] (tokens after) := by
  induction rest generalizing byte with
  | nil =>
    have newline : yylex (0x0a :: after) = .ok (some { token := .char 0x0a, rest := after }) :=
      rfl
    rw [hexTail, List.nil_append,
      tokens_of_yylex (yylex_writehex byte 0x0a after (by decide) (by decide) (by decide)),
      tokens_of_yylex newline]
    simp [numberTokens]
  | cons next more ih =>
    have comma (tail : List UInt8) :
        yylex (0x2c :: tail) = .ok (some { token := .char 0x2c, rest := tail }) := rfl
    have shape : hexTail (next :: more) ++ 0x0a :: after =
        0x2c :: 0x20 :: (writehex next ++ (hexTail more ++ 0x0a :: after)) := by
      simp [hexTail]
    rw [shape, tokens_of_yylex (yylex_writehex byte 0x2c _ (by decide) (by decide) (by decide)),
      tokens_of_yylex (comma _)]
    simp only [ih, prepend_prepend]
    rfl

theorem tokens_dataLine (byte : UInt8) (rest after : List UInt8) :
    tokens (dataLine (byte :: rest) ++ after) =
      prepend (.data .relo1 :: (numberTokens (byte :: rest) ++ [.char 0x0a])) []
        (tokens after) := by
  have opening (tail : List UInt8) : yylex (dataOpen ++ tail) =
      .ok (some { token := .data .relo1, rest := 0x20 :: tail }) := rfl
  have shape : dataLine (byte :: rest) ++ after =
      dataOpen ++ (writehex byte ++ (hexTail rest ++ 0x0a :: after)) := by
    simp [dataLine]
  rw [shape, tokens_of_yylex (opening _), tokens_hexTail, prepend_prepend]
  rfl

theorem datalist_numberTokens (order : Order) (byte : UInt8) (rest : List UInt8) :
    datalist order .relo1 (numberTokens (byte :: rest)) = some (byte :: rest) := by
  induction rest generalizing byte with
  | nil => simp [numberTokens, datalist, emitx, emit1]
  | cons next more ih =>
    have shape : numberTokens (byte :: next :: more) =
        .number8 byte.toNat :: .char 0x2c :: numberTokens (next :: more) := rfl
    rw [shape, datalist.eq_2 _ _ _ _, ih]
    simp [emitx, emit1]

theorem numberTokens_ne_newline (values : List UInt8) :
    ∀ token ∈ numberTokens values, token ≠ .char 0x0a := by
  induction values with
  | nil => simp [numberTokens]
  | cons byte rest ih =>
    cases rest with
    | nil => simp [numberTokens]
    | cons next more =>
      intro token member
      simp only [numberTokens, List.mem_cons] at member
      rcases member with rfl | rfl | member
      · simp
      · simp
      · exact ih token (by simpa [numberTokens] using member)

/-! ## Whole blocks -/

/-- A line whose tokens hold no newline is reduced when its newline comes. -/
theorem program_line (order : Order) (line more cur : List Token) (bytes rest : List UInt8)
    (noNewline : ∀ token ∈ line, token ≠ .char 0x0a)
    (reduced : operation order (cur ++ line) = some bytes)
    (tail : program order [] more = some rest) :
    program order cur (line ++ .char 0x0a :: more) = some (bytes ++ rest) := by
  induction line generalizing cur with
  | nil =>
    rw [List.append_nil] at reduced
    simp [program, reduced, tail]
  | cons token others ih =>
    have notNewline := noNewline token List.mem_cons_self
    rw [List.cons_append, program.eq_3 _ _ _ _ (fun same => notNewline same)]
    exact ih (cur ++ [token]) (fun t member => noNewline t (List.mem_cons_of_mem _ member))
      (by simpa using reduced)

/-- The text of a block is assembled; the bytes and errors are those of `ReadAs`. -/
def Assembles (order : Order) (text data : List UInt8) : Prop :=
  ∃ found errors bytes,
    tokens text = .ok (found, errors) ∧ program order [] found = some bytes ∧
      ReadAs bytes errors data

section

variable (rest : Assembles order text data)
include rest

theorem Assembles.line {whole run bytes : List UInt8}
    (line : List Token) {errors : List SError}
    (scanned : tokens whole = prepend (line ++ [.char 0x0a]) errors (tokens text))
    (noNewline : ∀ token ∈ line, token ≠ .char 0x0a) (reduced : operation order line = some bytes)
    (read : ReadAs bytes errors run) : Assembles order whole (run ++ data) := by
  obtain ⟨found, others, more, tokensRest, programRest, readRest⟩ := rest
  refine ⟨line ++ .char 0x0a :: found, errors ++ others, bytes ++ more, ?_, ?_,
    read.append readRest⟩
  · rw [scanned, tokensRest]
    simp [prepend, Except.map]
  · exact program_line order line found [] bytes more noNewline (by simpa using reduced) programRest

theorem Assembles.asciiLine (run : List UInt8)
    (isText : ∀ c ∈ run, istext c = true) :
    Assembles order (asciiLine run ++ text) (run ++ data) := by
  by_cases empty : run = []
  · subst empty
    simpa [Mcg.Data.asciiLine] using rest
  · obtain ⟨string, errors, scanned, read⟩ := tokens_asciiLine run text empty isText
    exact rest.line [.ascii false, .string string] (by simpa using scanned) (by simp)
      rfl read

theorem Assembles.dataLine (run : List UInt8)
    (notText : ∀ c ∈ run, istext c = false) :
    Assembles order (dataLine run ++ text) (run ++ data) := by
  cases run with
  | nil => simpa [Mcg.Data.dataLine] using rest
  | cons byte more =>
    have plain : 0x5c ∉ byte :: more := fun member => absurd (notText _ member) (by decide)
    refine rest.line (.data .relo1 :: numberTokens (byte :: more))
      (by simpa using tokens_dataLine byte more text) ?_ ?_ (ReadAs.refl plain)
    · intro token member
      rcases List.mem_cons.mp member with rfl | member
      · simp
      · exact numberTokens_ne_newline _ token member
    · exact datalist_numberTokens order byte more

end

theorem dataBlock_assembles (order : Order) (data : List UInt8) :
    Assembles order (dataBlock data) data := by
  induction length : data.length using Nat.strong_induction_on generalizing data with
  | _ n ih =>
    subst length
    cases data with
    | nil =>
      rw [dataBlock_nil]
      exact ⟨[], [], [], tokens_nil, rfl, ReadAs.refl (by simp)⟩
    | cons first others =>
      have tail := ih _ (block_tail_lt first others) _ rfl
      have hex := tail.dataLine (((first :: others).dropWhile istext).takeWhile
        fun c => !istext c) (fun c member => by simpa using List.mem_takeWhile_imp member)
      have whole := hex.asciiLine ((first :: others).takeWhile istext)
        (fun c member => List.mem_takeWhile_imp member)
      rw [List.takeWhile_append_dropWhile, List.takeWhile_append_dropWhile] at whole
      rw [dataBlock_eq, List.append_assoc]
      exact whole

/-- Data written by mcg comes back from the assembler without an error exactly
when it holds no backslash. -/
theorem data_block_read_back_iff (order : Order) (data : List UInt8) :
    assemble order (dataBlock data) = .ok (some data, []) ↔ 0x5c ∉ data := by
  obtain ⟨found, errors, bytes, scanned, reduced, read⟩ := dataBlock_assembles order data
  rw [← read.exact_iff]
  simp [assemble, scanned, Except.map, reduced]

/-- The two bytes of `\n` are written into a quoted run and read as one newline. -/
theorem data_block_escape_lost :
    assemble ⟨false, false⟩ (dataBlock [0x5c, 0x6e]) ≠ .ok (some [0x5c, 0x6e], []) := by
  intro readBack
  obtain ⟨found, errors, bytes, scanned, reduced, read⟩ :=
    dataBlock_assembles ⟨false, false⟩ [0x5c, 0x6e]
  simp only [assemble, scanned, Except.map, reduced, Except.ok.injEq, Prod.mk.injEq,
    Option.some.injEq] at readBack
  exact absurd (read.exact_iff.mp readBack) (by decide)

end AckFormal.Pipeline.DataText
