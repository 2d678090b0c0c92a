import AckFormal.As.Lexer

/-!
# Data directives read by the assembler

The productions of `as/comm2.y` for lines that hold nothing but a data
directive, with the bytes their actions emit into the current section.  A line
outside these productions is not assembled here and gives `none`.
-/

namespace AckFormal.As

/-! ## The scanner makes progress -/

theorem map_ok {ε α β : Type} {f : α → β} {x : Except ε α} {value : β}
    (h : x.map f = .ok value) : ∃ a, x = .ok a ∧ f a = value := by
  cases x with
  | error e => cases h
  | ok a => exact ⟨a, rfl, Except.ok.inj h⟩

theorem instring_length_le (termc : UInt8) (input buf : List UInt8) (lexeme : Lexeme)
    (scan : instring termc input buf = .ok lexeme) : lexeme.rest.length ≤ input.length := by
  fun_induction instring termc input buf with
  | case1 => cases scan
  | case2 input buf c after read stop =>
    cases scan
    exact Nat.le_refl _
  | case3 input buf after read notStop =>
    cases scan
    exact nextchar_length_le read
  | case4 => cases scan
  | case5 input buf after r rest escape read notStop notTerm ih =>
    have := nextchar_length_le read
    have := inescape_length_le escape
    have := ih scan
    omega
  | case6 input buf c after read notStop notTerm notEscape ih =>
    exact (ih scan).trans (nextchar_length_le read)

theorem floatLoop_length_le (budget : Nat) (c : UInt8) (input num : List UInt8) (lexeme : Lexeme)
    (scan : floatLoop budget c input num = .ok lexeme) : lexeme.rest.length ≤ input.length := by
  fun_induction floatLoop budget c input num with
  | case1 => cases scan
  | case2 => cases scan
  | case3 budget c input num raw after read next more ih =>
    exact (ih scan).trans (nextchar_length_le read)
  | case4 =>
    cases scan
    exact Nat.le_refl _

theorem numberLoop_length_le (budget : Nat) (c : UInt8) (input num : List UInt8)
    (lexeme : Lexeme) (scan : numberLoop budget c input num = .ok lexeme) :
    lexeme.rest.length ≤ input.length := by
  fun_induction numberLoop budget c input num with
  | case1 => cases scan
  | case2 => cases scan
  | case3 budget c input num after read =>
    exact (floatLoop_length_le _ _ _ _ _ scan).trans (nextchar_length_le read)
  | case4 budget c input num next after read notDot more ih =>
    exact (ih scan).trans (nextchar_length_le read)
  | case5 =>
    cases scan
    unfold finishNumber
    dsimp only
    split <;> exact Nat.le_refl _

theorem spanChars_length_le (p : UInt8 → Bool) (input : List UInt8)
    (pair : List UInt8 × List UInt8) (scan : spanChars p input = .ok pair) :
    pair.2.length ≤ input.length := by
  induction input generalizing pair with
  | nil =>
    cases scan
    exact Nat.le_refl _
  | cons c rest ih =>
    simp only [spanChars] at scan
    split at scan
    · split at scan
      · obtain ⟨inner, innerScan, rfl⟩ := map_ok scan
        exact (ih inner innerScan).trans (Nat.le_succ _)
      · cases scan
        exact Nat.le_refl _
    · cases scan

theorem readcode_map_length_le (width : Nat) (input : List UInt8) (lexeme : Lexeme)
    (scan : (readcode width input).map some = .ok (some lexeme)) :
    lexeme.rest.length ≤ input.length := by
  obtain ⟨inner, innerScan, same⟩ := map_ok scan
  cases same
  unfold readcode at innerScan
  split at innerScan
  · cases innerScan
    simp
  · cases innerScan

/-- Every token takes at least one character of the input. -/
theorem yylex_length_lt (input : List UInt8) (lexeme : Lexeme)
    (scan : yylex input = .ok (some lexeme)) : lexeme.rest.length < input.length := by
  unfold yylex at scan
  cases read : nextchar (skipBlanks input) with
  | error e => simp [read] at scan
  | ok pair =>
    obtain ⟨c, after⟩ := pair
    simp only [read] at scan
    split at scan
    · cases scan
    · rename_i notEnd
      have progress : after.length < input.length :=
        (nextchar_length_lt read notEnd).trans_le (List.dropWhile_sublist _).length_le
      suffices bound : lexeme.rest.length ≤ after.length from bound.trans_lt progress
      repeat' split at scan
      · obtain ⟨inner, innerScan, same⟩ := map_ok scan
        cases same
        obtain ⟨inner, spanScan, rfl⟩ := map_ok innerScan
        exact spanChars_length_le _ _ _ spanScan
      · obtain ⟨inner, innerScan, same⟩ := map_ok scan
        cases same
        unfold innumber at innerScan
        split at innerScan
        · exact floatLoop_length_le _ _ _ _ _ innerScan
        · exact numberLoop_length_le _ _ _ _ _ innerScan
      · obtain ⟨inner, innerScan, same⟩ := map_ok scan
        cases same
        obtain ⟨next, nextRead, rfl⟩ := map_ok innerScan
        split
        · exact nextchar_length_le nextRead
        · exact Nat.le_refl _
      · obtain ⟨inner, innerScan, same⟩ := map_ok scan
        cases same
        exact instring_length_le _ _ _ _ innerScan
      · obtain ⟨inner, spanScan, ended⟩ := map_ok scan
        have bound := spanChars_length_le _ _ _ spanScan
        split at ended
        · rename_i rest afterComment
          cases ended
          rw [afterComment] at bound
          exact (Nat.le_succ _).trans bound
        · cases ended
      · exact readcode_map_length_le 1 after lexeme scan
      · exact readcode_map_length_le 2 after lexeme scan
      · exact readcode_map_length_le 4 after lexeme scan
      · cases scan
        exact Nat.le_refl _

set_option linter.unusedVariables false in
/-- All tokens of the input with the errors reported while scanning them. -/
def tokens (input : List UInt8) : Except Fatal (List Token × List SError) :=
  match scan : yylex input with
  | .error e => .error e
  | .ok none => .ok ([], [])
  | .ok (some lexeme) =>
    match tokens lexeme.rest with
    | .error e => .error e
    | .ok (more, errors) => .ok (lexeme.token :: more, lexeme.errors ++ errors)
termination_by input.length
decreasing_by exact yylex_length_lt _ _ scan

def prepend (found : List Token) (errors : List SError)
    (scan : Except Fatal (List Token × List SError)) : Except Fatal (List Token × List SError) :=
  scan.map fun pair => (found ++ pair.1, errors ++ pair.2)

@[simp]
theorem prepend_prepend (first second : List Token) (errors more : List SError)
    (scan : Except Fatal (List Token × List SError)) :
    prepend first errors (prepend second more scan) =
      prepend (first ++ second) (errors ++ more) scan := by
  cases scan <;> simp [prepend, Except.map]

theorem tokens_of_yylex {input : List UInt8} {lexeme : Lexeme}
    (scan : yylex input = .ok (some lexeme)) :
    tokens input = prepend [lexeme.token] lexeme.errors (tokens lexeme.rest) := by
  rw [tokens]
  split
  · rename_i found
    rw [scan] at found
    cases found
  · rename_i found
    rw [scan] at found
    cases found
  · rename_i other found
    rw [scan] at found
    cases found
    cases tokens lexeme.rest with
    | error e => rfl
    | ok pair => rfl

theorem tokens_nil : tokens [] = .ok ([], []) := by
  rw [tokens]
  rfl

/-! ## Emitted bytes -/

/-- The byte order of the target: `BYTES_REVERSED` and `WORDS_REVERSED`. -/
structure Order where
  bytesReversed : Bool
  wordsReversed : Bool

def emit1 (arg : Nat) : List UInt8 := [arg.toUInt8]

def emit2 (order : Order) (arg : Nat) : List UInt8 :=
  if order.bytesReversed then emit1 (arg / 2 ^ 8) ++ emit1 arg
  else emit1 arg ++ emit1 (arg / 2 ^ 8)

def emitx (order : Order) (val : Nat) : DataSize → List UInt8
  | .relo1 => emit1 val
  | .relo2 => emit2 order val
  | .relo4 =>
    if order.wordsReversed then emit2 order (val / 2 ^ 16) ++ emit2 order val
    else emit2 order val ++ emit2 order (val / 2 ^ 16)

def emitstr (buf : List UInt8) (zero : Bool) : List UInt8 :=
  if zero then buf ++ emit1 0 else buf

/-! ## Productions -/

def datalist (order : Order) (size : DataSize) : List Token → Option (List UInt8)
  | [.number8 val] => some (emitx order val size)
  | .number8 val :: .char 0x2c :: more =>
    (datalist order size more).map (emitx order val size ++ ·)
  | _ => none

def operation (order : Order) : List Token → Option (List UInt8)
  | [] => some []
  | [.ascii zero, .string buf] => some (emitstr buf zero)
  | .data size :: list => datalist order size list
  | _ => none

/-- The lines of the program, each ended by its newline; `line` holds the tokens
of the current line. -/
def program (order : Order) (line : List Token) : List Token → Option (List UInt8)
  | [] => if line = [] then some [] else none
  | .char 0x0a :: more =>
    match operation order line, program order [] more with
    | some bytes, some rest => some (bytes ++ rest)
    | _, _ => none
  | token :: more => program order (line ++ [token]) more

/-- The bytes emitted for a text, with the errors reported on the way. -/
def assemble (order : Order) (input : List UInt8) :
    Except Fatal (Option (List UInt8) × List SError) :=
  (tokens input).map fun pair => (program order [] pair.1, pair.2)

end AckFormal.As
