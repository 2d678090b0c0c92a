import AckFormal.Ansi.DoscanTurns

/-!
# The runs of formatted input

The states between the turns of a call, and when the log is as it should be in all of them and at the
return.
-/

namespace AckFormal.Ansi.Doscan

open Lib.Lookahead

variable (m : Machine)

inductive Reached (ic : Int) (format input : List Int) : State → Prop where
  | first : Reached ic format input (start ic format input)
  | step {s s' : State} : Reached ic format input s → turn m s = .next s' →
      Reached ic format input s'

variable {m} {ic : Int} {format input : List Int} {s : State}

/-! ## Every turn uses some of the format -/

theorem peek_ne_nil {text : List Int} (some : peek text ≠ 0) : 0 < text.length := by
  cases text with
  | nil => exact absurd rfl some
  | cons c rest => exact Nat.zero_lt_succ _

theorem readSpec_rest (format : List Int) : (readSpec m format).rest <:+ format := by
  have star : (if (decide (peek format = chr '*') : Bool) then format.tail else format) <:+
      format := by
    split
    · exact List.tail_suffix _
    · exact List.suffix_rfl
  unfold readSpec
  dsimp only
  generalize (if decide (peek format = chr '*') = true then format.tail else format) = text at *
  have digits := (List.dropWhile_suffix (l := text) isdigit).trans star
  have next := (List.tail_suffix (text.dropWhile isdigit)).trans digits
  by_cases short : peek (text.dropWhile isdigit) = chr 'h'
  · rw [if_pos short]
    exact next
  rw [if_neg short]
  by_cases long : peek (text.dropWhile isdigit) = chr 'l'
  · rw [if_pos long]
    exact next
  rw [if_neg long]
  by_cases double : peek (text.dropWhile isdigit) = chr 'L'
  · rw [if_pos double]
    exact next
  · rw [if_neg double]
    exact digits

theorem setOf_rest (format : List Int) : (setOf format).2.2 <:+ format := by
  have caret : (if (decide (peek format = chr '^') : Bool) then format.tail else format) <:+
      format := by
    split
    · exact List.tail_suffix _
    · exact List.suffix_rfl
  unfold setOf
  dsimp only
  generalize (if decide (peek format = chr '^') = true then format.tail else format) = text at *
  split
  · exact (List.dropWhile_suffix inText).trans ((List.tail_suffix text).trans caret)
  · exact (List.dropWhile_suffix inText).trans caret

section Formats

variable {spec : Spec} {s' : State}

theorem integer_format (next : integer m spec s = .next s') : s'.format = spec.rest.tail := by
  unfold integer at next
  dsimp only at next
  split at next
  · cases next
  · split at next
    · cases next
    · cases next
      rfl

theorem float_format (next : float m spec s = .next s') : s'.format = spec.rest.tail := by
  unfold float at next
  dsimp only at next
  split at next
  · cases next
  · split at next
    · split at next
      · cases next
      · cases next
        rfl
    · cases next

theorem chars_format (next : chars m spec s = .next s') : s'.format = spec.rest.tail := by
  unfold chars at next
  dsimp only at next
  split at next
  · cases next
  · cases next
    rfl

theorem string_format (next : string m spec s = .next s') : s'.format = spec.rest.tail := by
  unfold string at next
  dsimp only at next
  split at next
  · cases next
  · cases next
    rfl

theorem scanset_format (next : scanset m spec s = .next s') :
    s'.format = (readSet spec.rest.tail).2.2.tail := by
  unfold scanset at next
  dsimp only at next
  split at next
  · cases next
  · split at next
    · cases next
    · split at next
      · cases next
        rfl
      · cases next

/-- A conversion leaves a part of the format from its letter on. -/
theorem conversion_format (next : conversion m spec s = .next s') : s'.format <:+ spec.rest := by
  have tail := List.tail_suffix spec.rest
  unfold conversion at next
  cases kind : kindOf m spec.kind with
  | count =>
    rw [kind] at next
    cases next
    exact tail
  | chars =>
    rw [kind] at next
    dsimp only at next
    split at next
    · cases next
    · rw [chars_format next]
      exact tail
  | scanset =>
    rw [kind] at next
    dsimp only at next
    split at next
    · cases next
    · rw [scanset_format next, (readSet_spec spec.rest.tail).2.1]
      exact (List.tail_suffix _).trans ((setOf_rest spec.rest.tail).trans tail)
  | integer =>
    rw [kind] at next
    dsimp only at next
    split at next
    · cases next
    · rw [integer_format next]
      exact tail
  | float =>
    rw [kind] at next
    dsimp only at next
    split at next
    · cases next
    · rw [float_format next]
      exact tail
  | string =>
    rw [kind] at next
    dsimp only at next
    split at next
    · cases next
    · rw [string_format next]
      exact tail
  | other =>
    rw [kind] at next
    dsimp only at next
    split at next <;> cases next

/-- Every turn uses up some of the format. -/
theorem turn_format (next : turn m s = .next s') : s'.format.length < s.format.length := by
  have shorter : ∀ text : List Int, peek s.format ≠ 0 → text <:+ s.format.tail →
      text.length < s.format.length := by
    intro text some suffix
    have positive := peek_ne_nil some
    have inside := suffix.length_le
    rw [List.length_tail] at inside
    omega
  unfold turn at next
  split at next
  next blank =>
    cases next
    have some : peek s.format ≠ 0 := by
      intro none
      rw [none] at blank
      exact absurd blank (by simp [isspace, ctype, NR_CHARS])
    refine shorter _ some ?_
    have same : ((s.blanks m).unget.count m (-1)).format = s.format := by
      unfold State.unget
      split <;> rfl
    rw [same]
    cases format : s.format with
    | nil => exact absurd (by rw [format]; rfl) some
    | cons c rest =>
      rw [format] at blank
      have this : isspace m c = true := blank
      rw [List.dropWhile_cons_of_pos this]
      exact List.dropWhile_suffix _
  split at next
  · cases next
  next some =>
    split at next
    · dsimp only at next
      split at next
      · cases next
        exact shorter _ some List.suffix_rfl
      · cases next
    · split at next
      · dsimp only at next
        split at next
        · cases next
          exact shorter _ some (List.tail_suffix _)
        · cases next
      · exact shorter _ some ((conversion_format next).trans (readSpec_rest _))

end Formats

/-! ## The loop -/

theorem Reached.loop (reached : Reached m ic format input s) :
    ∃ n, s.format.length < n ∧
      loop m (format.length + 1) (start ic format input) = loop m n s := by
  induction reached with
  | first => exact ⟨_, Nat.lt_succ_self _, rfl⟩
  | step before next ih =>
    obtain ⟨n, enough, same⟩ := ih
    cases n with
    | zero => exact absurd enough (Nat.not_lt_zero _)
    | succ n =>
      refine ⟨n, Nat.lt_of_lt_of_le (turn_format next) (Nat.lt_succ_iff.mp enough), ?_⟩
      rw [same, Doscan.loop, next]

theorem loop_ends {n : Nat} (reached : Reached m ic format input s) (enough : s.format.length < n) :
    ∃ r s' value, Reached m ic format input r ∧ turn m r = .stop s' value ∧
      loop m n s = some (s', value) := by
  induction n generalizing s with
  | zero => exact absurd enough (Nat.not_lt_zero _)
  | succ n ih =>
    cases result : turn m s with
    | next s' =>
      obtain ⟨r, last, value, rest⟩ := ih (reached.step result)
        (Nat.lt_of_lt_of_le (turn_format result) (Nat.lt_succ_iff.mp enough))
      refine ⟨r, last, value, rest.1, rest.2.1, ?_⟩
      rw [loop, result]
      exact rest.2.2
    | stop s' value =>
      refine ⟨s, s', value, reached, result, ?_⟩
      rw [loop, result]

theorem held_start (ic : Int) (format input : List Int) : Held m (start ic format input) where
  settled := ⟨rfl, trivial, trivial, trivial⟩
  counted := by simp [start, Machine.int, consumed, overrun]
  pos := Int.le_refl 0

theorem Reached.held (reached : Reached m ic format input s)
    (sound : ∀ r, Reached m ic format input r → Sound m r) : Held m s := by
  induction reached with
  | first => exact held_start ic format input
  | step before next ih =>
    have turned := turn_turned ih
    have settled := turned.settled.mpr (sound _ before)
    obtain ⟨counted, pos⟩ := turned.counted (sound _ before) _ next
    rw [next] at settled
    exact ⟨settled, counted, pos⟩

/-- Where the log is as it should be, the turns are sound. -/
theorem Reached.sound (clean : ∀ r, Reached m ic format input r → Clean r.reader.log)
    (last : ∀ r s' value, Reached m ic format input r → turn m r = .stop s' value →
      Clean s'.reader.log) (reached : Reached m ic format input s) : Held m s ∧ Sound m s := by
  have turns : ∀ {r}, Reached m ic format input r → Held m r → Sound m r := by
    intro r reached held
    refine (turn_turned held).settled.mp ((clean_iff _).mp ?_)
    cases result : turn m r with
    | next s' => exact clean s' (reached.step result)
    | stop s' value => exact last r s' value reached result
  have held : Held m s := by
    induction reached with
    | first => exact held_start ic format input
    | step before next ih =>
      have turned := turn_turned ih
      have sound := turns before ih
      have settled := turned.settled.mpr sound
      obtain ⟨counted, pos⟩ := turned.counted sound _ next
      rw [next] at settled
      exact ⟨settled, counted, pos⟩
  exact ⟨held, turns reached held⟩

/-- The loop would leave the state of an empty format as it is. -/
theorem turn_empty (none : peek s.format = 0) : turn m s = .stop s s.value := by
  have solid : ¬isspace m (peek s.format) = true := by
    rw [none]
    simp [isspace, ctype, NR_CHARS]
  unfold turn
  rw [if_neg solid, if_pos none]

/-- A call returns in the state that the last turn leaves. -/
theorem doscan_ends (m : Machine) (ic : Int) (format input : List Int) :
    ∃ r s value value', Reached m ic format input r ∧ turn m r = .stop s value ∧
      loop m (format.length + 1) (start ic format input) = some (s, value) ∧
      doscan m ic format input = some (s, value') := by
  obtain ⟨r, s, value, reached, stops, ends⟩ :=
    loop_ends (.first : Reached m ic format input _) (Nat.lt_succ_self format.length)
  by_cases none : peek format = 0
  · have same : some (start ic format input, (start ic format input).value) = some (s, value) := by
      rw [← ends, loop, turn_empty (s := start ic format input) none]
    obtain ⟨rfl, rfl⟩ := Prod.mk.inj (Option.some.inj same)
    exact ⟨r, _, _, 0, reached, stops, ends, if_pos none⟩
  · exact ⟨r, s, value, value, reached, stops, ends, (if_neg none).trans ends⟩

/-- A call returns; the log is as it should be after every turn and at the return just if every
turn is sound. -/
theorem doscan_clean_iff (m : Machine) (ic : Int) (format input : List Int) :
    ∃ s value, doscan m ic format input = some (s, value) ∧
      ((Clean s.reader.log ∧ ∀ r, Reached m ic format input r → Clean r.reader.log) ↔
        ∀ r, Reached m ic format input r → Sound m r) := by
  obtain ⟨last, s, value, value', reached, stops, ends, called⟩ := doscan_ends m ic format input
  refine ⟨s, value', called, ?_, ?_⟩
  · rintro ⟨final, clean⟩ r run
    refine (Reached.sound clean ?_ run).2
    intro r' s' value'' run' stops'
    obtain ⟨n, enough, same⟩ := run'.loop
    cases n with
    | zero => exact absurd enough (Nat.not_lt_zero _)
    | succ n =>
      rw [ends, loop, stops'] at same
      obtain ⟨rfl, -⟩ := Prod.mk.inj (Option.some.inj same)
      exact final
  · intro sound
    have clean : ∀ r, Reached m ic format input r → Clean r.reader.log := fun r run =>
      (clean_iff _).mpr (run.held sound).settled
    have settled := (turn_turned (reached.held sound)).settled.mpr (sound last reached)
    rw [stops] at settled
    exact ⟨(clean_iff _).mpr settled, clean⟩

theorem pdp_long : 16 ≤ 32 := by decide

def pdp : Machine where
  intBits := 16
  longBits := 32
  longPointer := false
  stdioFloat := true
  stray := fun _ => ⟨false, false⟩
  int_wide := Nat.le_refl 16
  int_long := pdp_long

/-- `%%` reads the `x` and does not push it back. -/
theorem percent_loses :
    ∃ s value, doscan pdp 0 [chr '%', chr '%'] [chr 'x'] = some (s, value) ∧
      ¬Clean s.reader.log := by
  refine ⟨_, _, rfl, fun clean => ?_⟩
  exact absurd clean.left.1 (by decide)

end AckFormal.Ansi.Doscan
