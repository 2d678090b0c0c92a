import AckFormal.Ansi.DoscanFields
import AckFormal.Ansi.DoscanSets
import Mathlib.Algebra.Group.Int.Defs

/-!
# The turns of formatted input

When one turn of the loop keeps what the log is said to be. Each conversion has a condition on the
characters that it finds; `EOF` among them is a character that `_doscan_get` answers with the value of the
end of the input.
-/

namespace AckFormal.Ansi.Doscan

open Lib.Lookahead

variable (m : Machine)

def inside : Act → Prop
  | .put i _ => i < NUMLEN
  | .table i => InTable i
  | _ => True

/-- A number of characters that is stored is the number consumed. -/
def counts (consumed : Int) : Act → Prop
  | .count _ value => value = consumed
  | _ => True

/-- What is said of the log between the turns and at the return. -/
structure Clean (log : Log Int Act) : Prop where
  inside : ∀ act, Event.act act ∈ log → inside act
  counts : Acts counts log
  left : pending log = none ∧ LeftUnread log
  once : PushedOnce log

theorem clean_iff (r : Input) : Clean r.log ↔ r.Settled right := by
  have each : ∀ n act, right n act ↔ inside act ∧ counts n act := by
    intro n act
    cases act with
    | put i c => exact (and_iff_left trivial).symm
    | table i => exact (and_iff_left trivial).symm
    | count size value => exact (and_iff_right trivial).symm
    | assign size assigned => exact (and_iff_right trivial).symm
  have both : Acts right r.log ↔ Acts (fun _ => inside) r.log ∧ Acts counts r.log :=
    acts_and each r.log
  constructor
  · intro clean
    exact ⟨clean.left.1, clean.left.2, clean.once,
      both.mpr ⟨acts_const.mpr clean.inside, clean.counts⟩⟩
  · intro settled
    obtain ⟨inside, counts⟩ := both.mp settled.acts
    exact ⟨acts_const.mp inside, counts, ⟨settled.none, settled.left⟩, settled.once⟩

/-! ## The conditions -/

/-- The field is not ended by a character that is taken for the end of the input. -/
def NotLost (rest : List Int) : Prop := rest.head? ≠ some EOF

def SoundInteger (type : Int) (width : Nat) (text : List Int) : Prop :=
  width ≠ 0 ∧ (numeral m type (text.take width)).1.length < NUMLEN ∧
    NotLost (numeral m type (text.take width)).2

def SoundFloat (width : Nat) (text : List Int) : Prop :=
  width ≠ 0 ∧
    ((floating (text.take width)).1 = true → (floating (text.take width)).2.1.length < NUMLEN) ∧
    NotLost (floating (text.take width)).2.2

def SoundField (ok : Int → Bool) (width : Nat) (text : List Int) : Prop :=
  width ≠ 0 ∧ NotLost ((text.take width).dropWhile ok)

def notEnd (c : Int) : Bool := c ≠ EOF

def inWord (c : Int) : Bool := c ≠ EOF ∧ ¬isspace m c

def inScan (reverse : Bool) (text : List Int) (c : Int) : Bool := c ≠ EOF ∧ (inSet text c != reverse)

/-- The text of the set lies in the table, and if the set is closed so do the characters that are
tested. -/
def SoundScanset (format : List Int) (width : Nat) (text : List Int) : Prop :=
  let (reverse, set, rest) := setOf format
  width ≠ 0 ∧ (∀ a ∈ set, InTable a) ∧
    (peek rest ≠ 0 → ∀ c ∈ Field.tested (inScan reverse set) (text.take width), InTable c)

def countBits (size : Size) : Nat := if size = .short then 16 else m.intBits

/-- The number of characters consumed fits, and the end of the input was not taken for characters of the
format before. -/
def SoundCount (size : Size) (s : State) : Prop :=
  consumed s.reader.log < 2 ^ (countBits m size - 1) ∧
    overrun s.reader.log % 2 ^ countBits m size = 0

/-- There is nothing to convert, or the conversion that begins here is sound. -/
def Begins (text : List Int) (sound : Prop) : Prop :=
  text = [] ∨ text.head? ≠ some EOF ∧ sound

def SoundConversion (spec : Spec) (s : State) : Prop :=
  let text := s.reader.unread
  let word := text.dropWhile (isspace m)
  match kindOf m spec.kind with
  | .count => spec.noassign = true ∨ SoundCount m (spec.intSize m) s
  | .chars => Begins text (SoundField notEnd (spec.width.getD 1) text)
  | .scanset => Begins text (SoundScanset spec.rest.tail (spec.width.getD 0xffff) text)
  | .integer => Begins word (SoundInteger m spec.kind (numberWidth spec.width) word)
  | .float => Begins word (SoundFloat (numberWidth spec.width) word)
  | .string => Begins word (SoundField (inWord m) (spec.width.getD 0xffff) word)
  | .other => word = []

/-- When a turn is sound, by the format and the input that are left before it. -/
def Sound (s : State) : Prop :=
  let text := s.reader.unread
  if isspace m (peek s.format) then NotLost (text.dropWhile (isspace m))
  else if peek s.format = 0 then True
  else if peek s.format ≠ chr '%' then NotLost text ∨ peek s.format = EOF
  else if peek s.format.tail = chr '%' then text = [] ∨ text.head? = some (chr '%')
  else SoundConversion m (readSpec m s.format.tail) s

/-! ## What a turn keeps -/

structure Held (s : State) : Prop where
  settled : s.reader.Settled right
  counted : s.nrchars = m.int (consumed s.reader.log + overrun s.reader.log)
  pos : 0 ≤ consumed s.reader.log

def Turn.state : Turn → State
  | .next s => s
  | .stop s _ => s

/-- The log stays as it should be just if `sound` holds, and the count is right then. -/
structure Turned (t : Turn) (sound : Prop) : Prop where
  settled : t.state.reader.Settled right ↔ sound
  counted : sound → ∀ s, t = .next s →
    s.nrchars = m.int (consumed s.reader.log + overrun s.reader.log) ∧ 0 ≤ consumed s.reader.log

/-- A conversion with its first character in `ic`, after `base` characters. -/
structure Facing (text : List Int) (base : Int) (excess : Nat) (s : State) : Prop where
  asked : Asked EOF text base excess s.ic s.reader
  acts : Acts right s.reader.log
  counted : s.nrchars = m.int (base + excess + 1)
  pos : 0 ≤ base
  some : s.ic ≠ EOF

variable {m} {text : List Int} {base : Int} {excess : Nat} {s : State} {spec : Spec} {sound : Prop}

theorem Turned.congr {t : Turn} {sound sound' : Prop} (turned : Turned m t sound)
    (same : sound ↔ sound') : Turned m t sound' :=
  ⟨turned.settled.trans same, fun holds => turned.counted (same.mpr holds)⟩

theorem int_add (a b : Int) : m.int (m.int a + b) = m.int (a + b) := Int.bmod_add_bmod

theorem unget_reader (s : State) :
    s.unget.reader = if s.ic ≠ EOF then s.reader.unget s.ic else s.reader := by
  unfold State.unget
  split <;> rfl

namespace Facing

variable (facing : Facing m text base excess s)
include facing

theorem cons : ∃ rest, text = s.ic :: rest := by
  have head := facing.asked.head
  cases text with
  | nil => exact absurd head facing.some
  | cons c rest => exact ⟨rest, by rw [head]; rfl⟩

theorem ne_nil : text ≠ [] := by
  obtain ⟨rest, rfl⟩ := facing.cons
  exact List.cons_ne_nil _ _

theorem kept : text.head? ≠ Option.some EOF := by
  obtain ⟨rest, rfl⟩ := facing.cons
  exact fun last => facing.some (Option.some.inj last)

theorem stop (value : Int) (fails : ¬sound) :
    Turned m (.stop s value) sound where
  settled := by
    refine ⟨fun settled => ?_, fun holds => absurd holds fails⟩
    exact absurd ((facing.asked.settled_iff right).mp settled).1 facing.ne_nil
  counted holds := absurd holds fails

end Facing

theorem finish_counted {f : Collect} (counted : s.nrchars = m.int (base + excess + 1))
    (ready : f.Ready EOF base excess) (kept : f.ahead.head? ≠ some EOF) :
    (s.finish m f).nrchars =
      m.int (consumed (s.finish m f).reader.log + overrun (s.finish m f).reader.log) := by
  obtain ⟨-, count, over'⟩ := ready.giveBack_iff right
  have more := ready.more
  change m.int (s.nrchars + f.more - _) =
    m.int (consumed (f.giveBack EOF).log + overrun (f.giveBack EOF).log)
  rw [count kept, over', counted, Int.add_sub_assoc, int_add]
  congr 1
  split at more
  all_goals
    next spent =>
      omega

/-! ## The conversions -/

theorem assign_reader (noassign : Bool) (size : Size) (assigned : Assigned) (s : State) :
    ((s.assign noassign size assigned).reader.Settled right ↔ s.reader.Settled right) ∧
      consumed (s.assign noassign size assigned).reader.log = consumed s.reader.log ∧
      overrun (s.assign noassign size assigned).reader.log = overrun s.reader.log ∧
      (s.assign noassign size assigned).nrchars = s.nrchars := by
  unfold State.assign
  split
  · exact ⟨Iff.rfl, rfl, rfl, rfl⟩
  · refine ⟨?_, consumed_acts _ _, overrun_acts _ _, rfl⟩
    rw [Reader.settled_acts]
    exact and_iff_left (by simp [right])

theorem assigned_turned (settled : s.reader.Settled right ↔ sound)
    (counted : sound → s.nrchars = m.int (consumed s.reader.log + overrun s.reader.log) ∧
      0 ≤ consumed s.reader.log) (noassign noassign' : Bool) (size : Size) (assigned : Assigned)
    (rest : List Int) :
    Turned m (.next ((s.assign noassign size assigned).converted noassign' rest)) sound := by
  obtain ⟨same, count, excess, nrchars⟩ := assign_reader noassign size assigned s
  refine ⟨same.trans settled, fun holds s' next => ?_⟩
  cases next
  change (s.assign noassign size assigned).nrchars =
    m.int (consumed (s.assign noassign size assigned).reader.log +
      overrun (s.assign noassign size assigned).reader.log) ∧
    0 ≤ consumed (s.assign noassign size assigned).reader.log
  rw [nrchars, count, excess]
  exact counted holds

/-- A field of characters, once its end is pushed back. -/
theorem finish_turned (counted : s.nrchars = m.int (base + excess + 1)) (pos : 0 ≤ base) {f : Collect}
    (ready : f.Ready EOF base excess) (acts : Acts right f.reader.log ↔ sound)
    (noassign noassign' : Bool) (size : Size) (assigned : Assigned) (rest : List Int) :
    Turned m (.next (((s.finish m f).assign noassign size assigned).converted noassign' rest))
      (NotLost f.ahead ∧ sound) := by
  obtain ⟨settled, count, -⟩ := ready.giveBack_iff right
  refine assigned_turned (settled.trans (and_congr_right' acts)) (fun holds => ?_) ..
  refine ⟨finish_counted counted ready holds.1, ?_⟩
  change 0 ≤ consumed (f.giveBack EOF).log
  rw [count holds.1]
  omega

section

variable (facing : Facing m text base excess s)
include facing

theorem field_turned (ok : Int → Bool) (refuses : ok EOF = false)
    {width : Nat} (some : width ≠ 0) (noassign noassign' : Bool) (size : Size)
    (assigned : Collect → Assigned) (rest : List Int) :
    let f := (Field.start s.ic width s.reader).gather EOF (fun _ => []) ok (fun _ _ => []) width
    Turned m (.next (((s.finish m f).assign noassign size (assigned f)).converted noassign' rest))
      (SoundField ok width text) := by
  intro f
  obtain ⟨ready, ahead⟩ := Field.ready_start some facing.asked
  obtain ⟨ready', -, ahead'⟩ :=
    ready.gather (fun _ => []) (fun _ _ => ([] : List Act)) refuses (Nat.le_refl width)
  have silent : ∀ (n : Int) (c : Int), (∀ e ∈ ([] : List Act), right n e) ↔ True := by simp
  have acts := ready.gather_acts right refuses rfl silent
    (fun _ _ _ _ e member => absurd member List.not_mem_nil) (Nat.le_refl width) (Nat.le_refl _)
  have holds : Acts right f.reader.log ↔ width ≠ 0 :=
    ⟨fun _ => some, fun _ => acts.mpr ⟨facing.acts, fun _ _ => trivial⟩⟩
  have turned := finish_turned facing.counted facing.pos ready' holds noassign noassign' size
    (assigned f) rest
  refine turned.congr ?_
  rw [and_comm, SoundField, ← ahead, ← ahead']

theorem chars_turned :
    Turned m (chars m spec s) (SoundField notEnd (spec.width.getD 1) text) := by
  unfold chars
  by_cases zero : spec.width.getD 1 = 0
  · rw [if_pos zero]
    exact facing.stop _ fun holds => holds.1 zero
  · rw [if_neg zero]
    exact field_turned facing notEnd (by decide) zero spec.noassign spec.noassign .int
      (fun f => .chars f.text false) spec.rest

theorem string_turned :
    Turned m (string m spec s) (SoundField (inWord m) (spec.width.getD 0xffff) text) := by
  unfold string
  by_cases zero : spec.width.getD 0xffff = 0
  · rw [if_pos zero]
    exact facing.stop _ fun holds => holds.1 zero
  · rw [if_neg zero]
    exact field_turned facing (inWord m) (by simp [inWord]) zero spec.noassign spec.noassign .int
      (fun f => .chars f.text true) spec.rest

end

theorem numberWidth_le (width : Option Nat) : numberWidth width ≤ NUMLEN := by
  unfold numberWidth
  split
  · split <;> omega
  · exact Nat.le_refl _

/-- The end of a number: the character ahead is pushed back and a NUL put behind the text. -/
theorem terminated_settled {f g : Collect} {taken rest : List Int}
    (collected : Collected base excess f g taken rest) (acts : Acts right f.reader.log)
    (empty : f.text = []) (room : f.ahead.length ≤ NUMLEN) :
    (((g.giveBack EOF).acts [.put g.text.length 0]).Settled right ↔
        taken.length < NUMLEN ∧ NotLost rest) ∧
      (NotLost rest → consumed ((g.giveBack EOF).acts [.put g.text.length 0]).log =
        base + g.text.length) ∧
      overrun ((g.giveBack EOF).acts [.put g.text.length 0]).log = excess := by
  obtain ⟨settled, count, over'⟩ := collected.ready.giveBack_iff right
  have text : g.text = taken := by rw [collected.text, empty, List.nil_append]
  have kept : Acts right g.reader.log := (collected.acts (by rw [empty]; simpa using room)).mpr acts
  rw [collected.ahead] at settled count
  refine ⟨?_, fun more => ?_, (overrun_acts _ _).trans over'⟩
  · rw [Reader.settled_acts, settled, text, List.forall_mem_singleton, and_comm]
    exact and_congr_right' (and_iff_left kept)
  · exact (consumed_acts _ _).trans (count more)

theorem number_counted (facing : Facing m text base excess s) {r : Input} {length : Nat}
    (count : consumed r.log = base + length) (over' : overrun r.log = excess) :
    m.int (s.nrchars + (length - 1)) = m.int (consumed r.log + overrun r.log) ∧
      0 ≤ consumed r.log := by
  have pos := facing.pos
  rw [facing.counted, int_add, count, over']
  constructor
  · congr 1
    omega
  · omega

theorem integer_turned (facing : Facing m text base excess s) :
    Turned m (integer m spec s) (SoundInteger m spec.kind (numberWidth spec.width) text) := by
  unfold integer
  dsimp only
  by_cases zero : numberWidth spec.width = 0
  · rw [if_pos zero]
    exact facing.stop _ fun holds => holds.1 zero
  rw [if_neg zero]
  obtain ⟨ready, ahead⟩ := Field.ready_start zero facing.asked
  have collected := oCollect_collected (m := m) spec.kind zero ready
  have room : (Field.start s.ic (numberWidth spec.width) s.reader).ahead.length ≤ NUMLEN :=
    (Field.ahead_length_le _).trans (numberWidth_le spec.width)
  obtain ⟨settled, count, over'⟩ := terminated_settled collected facing.acts rfl room
  rw [ahead] at settled count
  have same : _ ↔ SoundInteger m spec.kind (numberWidth spec.width) text :=
    settled.trans (and_iff_right zero).symm
  split
  · exact ⟨same, fun _ s' next => by cases next⟩
  · refine assigned_turned same (fun holds => ?_) ..
    exact number_counted facing (count holds.2.2) over'

/-- A field that is a floating-point number. -/
theorem float_turned (facing : Facing m text base excess s) :
    Turned m (float m spec s) (SoundFloat (numberWidth spec.width) text) := by
  unfold float
  dsimp only
  by_cases zero : numberWidth spec.width = 0
  · rw [if_pos zero]
    exact facing.stop _ fun holds => holds.1 zero
  rw [if_neg zero]
  obtain ⟨ready, ahead⟩ := Field.ready_start zero facing.asked
  obtain ⟨whole, collected⟩ := fCollect_collected zero rfl ready
  have room : (Field.start s.ic (numberWidth spec.width) s.reader).ahead.length ≤ NUMLEN :=
    (Field.ahead_length_le _).trans (numberWidth_le spec.width)
  obtain ⟨settled, count, over'⟩ := terminated_settled collected facing.acts rfl room
  obtain ⟨settled', -, -⟩ := collected.ready.giveBack_iff right
  have kept := (collected.acts ((Nat.zero_add _).le.trans room)).mpr facing.acts
  rw [collected.ahead] at settled'
  generalize (fCollect (.start s.ic (numberWidth spec.width) s.reader)) = done at *
  rw [ahead] at settled count whole settled'
  cases number : done.1 with
  | true =>
    have same : _ ↔ SoundFloat (numberWidth spec.width) text :=
      settled.trans ⟨fun both => ⟨zero, fun _ => both.1, both.2⟩,
        fun holds => ⟨holds.2.1 (whole.symm.trans number), holds.2.2⟩⟩
    rw [if_pos rfl]
    split
    · exact ⟨same, fun _ s' next => by cases next⟩
    · refine assigned_turned same (fun holds => ?_) ..
      exact number_counted facing (count holds.2.2) over'
  | false =>
    refine ⟨settled'.trans ?_, fun _ s' next => by cases next⟩
    have fails : ¬(floating (text.take (numberWidth spec.width))).1 = true := by
      rw [← whole, number]
      exact Bool.false_ne_true
    refine (and_iff_left kept).trans ?_
    exact ⟨fun more => ⟨zero, fun holds => absurd holds fails, more⟩, fun holds => holds.2.2⟩

theorem table_acts (marks : List Int) (n : Int) :
    (∀ e ∈ marks.map Act.table, right n e) ↔ ∀ c ∈ marks, InTable c := by
  rw [List.forall_mem_map]
  rfl

/-- The table after the loop over the format is the set. -/
theorem inside_eq {format : List Int} (inside : ∀ a ∈ (setOf format).2.1, InTable a) (c : Int) :
    decide (c ≠ EOF ∧ (markAll (readSet format).2.1 c != (readSet format).1) = true) =
      inScan (setOf format).1 (setOf format).2.1 c := by
  obtain ⟨reverse, -, members, marked⟩ := readSet_spec format
  have same : markAll (readSet format).2.1 c = inSet (setOf format).2.1 c := by
    rw [Bool.eq_iff_iff, markAll_iff, members]
    exact and_iff_left_of_imp fun member => marked.mpr inside c ((members c).mpr member)
  unfold inScan
  rw [same, reverse]

/-- Of the characters that are tested only the one that ends the field can be `EOF`. -/
theorem tested_iff {ok : Int → Bool} (refuses : ok EOF = false) (ahead : List Int) :
    NotLost (ahead.dropWhile ok) ∧ (∀ c ∈ Field.tested ok ahead, c = EOF ∨ InTable c) ↔
      ∀ c ∈ Field.tested ok ahead, InTable c := by
  constructor
  · rintro ⟨kept, inside⟩ c member
    refine (inside c member).resolve_left fun last => ?_
    rcases List.mem_append.mp member with taken | final
    · have good := List.mem_takeWhile_imp taken
      rw [last, refuses] at good
      exact Bool.false_ne_true good
    · exact kept (last ▸ Option.mem_toList.mp final)
  · intro inside
    refine ⟨fun last => ?_, fun c member => .inr (inside c member)⟩
    have bad := inside EOF (List.mem_append_right _ (Option.mem_toList.mpr last))
    exact absurd bad.1 (by decide)

/-- The same of a field of characters. -/
theorem scan_turned (facing : Facing m text base excess s) (ok : Int → Bool)
    (refuses : ok EOF = false) {width : Nat} (some : width ≠ 0) (marks : List Int)
    (noassign noassign' : Bool) (size : Size) (assigned : Collect → Assigned) (rest : List Int) :
    let s' := { s with reader := (s.reader.acts (marks.map Act.table)).acts [Act.table s.ic] }
    let f := ((Field.start s.ic width s'.reader).advance EOF).gather EOF
      (fun c => if c = EOF then [] else [Act.table c]) ok (fun _ _ => []) (width - 1)
    Turned m
      (if ok s.ic then .next (((s'.finish m f).assign noassign size (assigned f)).converted noassign' rest)
        else .stop s'.unget s'.done)
      ((∀ c ∈ marks, InTable c) ∧ ∀ c ∈ Field.tested ok (text.take width), InTable c) := by
  intro s' f
  have asked : Asked EOF text base excess s'.ic s'.reader :=
    (facing.asked.acts facing.ne_nil _).acts facing.ne_nil _
  have acts : Acts right s'.reader.log ↔ (∀ c ∈ marks, InTable c) ∧ InTable s.ic := by
    change Acts right ((s.reader.acts (marks.map Act.table)).acts [Act.table s.ic]).log ↔ _
    rw [Reader.acts, acts_acts, Reader.acts, acts_acts, table_acts, List.forall_mem_singleton]
    exact and_congr_left' (and_iff_right facing.acts)
  obtain ⟨rest', cons⟩ := facing.cons
  obtain ⟨n, more⟩ := Nat.exists_eq_succ_of_ne_zero some
  have view : text.take width = s.ic :: rest'.take n := by rw [cons, more, List.take_succ_cons]
  rw [view]
  cases good : ok s.ic with
  | false =>
    refine ⟨?_, fun _ s'' next => by cases next⟩
    obtain ⟨settled, -, -⟩ := asked.unget_iff right
    have last : Field.tested ok (s.ic :: rest'.take n) = [s.ic] := by
      unfold Field.tested
      rw [List.takeWhile_cons_of_neg (by simp [good]), List.dropWhile_cons_of_neg (by simp [good])]
      rfl
    change s'.unget.reader.Settled right ↔ _
    rw [unget_reader, settled, acts, last, List.forall_mem_singleton]
    exact and_iff_right facing.kept
  | true =>
    obtain ⟨ready, ahead⟩ := Field.ready_start some asked
    rw [view] at ahead
    obtain ⟨ready', ahead', text', width'⟩ := ready.advance ahead
    have enough : ((Field.start s'.ic width s'.reader).advance EOF).width ≤ width - 1 := width'.le
    obtain ⟨ready'', -, ahead''⟩ := ready'.gather (fun c => if c = EOF then [] else [Act.table c])
      (fun _ _ => []) refuses enough
    have probes : ∀ (n : Int) (c : Int),
        (∀ e ∈ if c = EOF then [] else [Act.table c], right n e) ↔ c = EOF ∨ InTable c := by
      intro n c
      by_cases last : c = EOF
      · simp [last]
      · rw [if_neg last, List.forall_mem_singleton]
        exact (or_iff_right last).symm
    have acts' := ready'.gather_acts right refuses rfl probes
      (fun _ _ _ _ e member => absurd member List.not_mem_nil) enough (Nat.le_refl _)
    rw [Field.advance_acts] at acts'
    have holds := acts'.trans (and_congr_left' acts)
    have turned := finish_turned (s := s') facing.counted facing.pos ready'' holds noassign noassign'
      size (assigned f) rest
    have first : Field.tested ok (s.ic :: rest'.take n) = s.ic :: Field.tested ok (rest'.take n) := by
      unfold Field.tested
      rw [List.takeWhile_cons_of_pos good, List.dropWhile_cons_of_pos good]
      rfl
    rw [ahead'', ahead'] at turned
    rw [first, List.forall_mem_cons, ← tested_iff refuses]
    refine turned.congr ⟨?_, ?_⟩
    · rintro ⟨kept, ⟨set, here⟩, others⟩
      exact ⟨set, here, kept, others⟩
    · rintro ⟨set, here, kept, others⟩
      exact ⟨kept, ⟨set, here⟩, others⟩

/-- A field of the characters of a set. -/
theorem scanset_turned (facing : Facing m text base excess s) :
    Turned m (scanset m spec s) (SoundScanset spec.rest.tail (spec.width.getD 0xffff) text) := by
  unfold scanset SoundScanset
  dsimp only
  by_cases zero : spec.width.getD 0xffff = 0
  · rw [if_pos zero]
    exact facing.stop _ fun holds => holds.1 zero
  rw [if_neg zero]
  obtain ⟨-, after, -, marked⟩ := readSet_spec spec.rest.tail
  rw [after]
  by_cases closed : peek (setOf spec.rest.tail).2.2 = 0
  · rw [if_pos closed]
    refine ⟨?_, fun _ s' next => by cases next⟩
    have asked := facing.asked.acts facing.ne_nil ((readSet spec.rest.tail).2.1.map Act.table)
    have acts : Acts right (s.reader.acts ((readSet spec.rest.tail).2.1.map Act.table)).log ↔
        ∀ a ∈ (setOf spec.rest.tail).2.1, InTable a := by
      rw [Reader.acts, acts_acts, table_acts, marked]
      exact and_iff_right facing.acts
    obtain ⟨settled, -, -⟩ := asked.unget_iff right
    refine (Iff.of_eq (congrArg _ (unget_reader _))).trans (settled.trans ?_)
    rw [acts, and_iff_right facing.kept]
    exact ⟨fun set => ⟨zero, set, fun more => absurd closed more⟩, fun holds => holds.2.1⟩
  · rw [if_neg closed]
    have scanned := scan_turned facing
      (fun c => c ≠ EOF ∧ (markAll (readSet spec.rest.tail).2.1 c != (readSet spec.rest.tail).1))
      (by simp) zero (readSet spec.rest.tail).2.1 spec.noassign spec.noassign .int
      (fun f => .chars f.text true) (setOf spec.rest.tail).2.2
    refine scanned.congr ?_
    rw [marked]
    have same := fun set : ∀ a ∈ (setOf spec.rest.tail).2.1, InTable a => funext (inside_eq set)
    constructor
    · rintro ⟨set, tested⟩
      rw [same set] at tested
      exact ⟨zero, set, fun _ => tested⟩
    · rintro ⟨-, set, tested⟩
      rw [same set]
      exact ⟨set, tested closed⟩

/-! ## Counting -/

theorem bmod_iff {n : Int} {k b : Nat} (pos : 0 ≤ n) (some : 0 < b) :
    (n + k).bmod (2 ^ b) = n ↔ n < 2 ^ (b - 1) ∧ k % 2 ^ b = 0 := by
  obtain ⟨c, rfl⟩ : ∃ c, b = c + 1 := ⟨b - 1, by omega⟩
  rw [Nat.add_sub_cancel]
  have double : 2 ^ (c + 1) = 2 * 2 ^ c := by rw [Nat.pow_succ, Nat.mul_comm]
  have large : 0 < 2 ^ c := Nat.two_pow_pos c
  have cast : ((2 ^ c : Nat) : Int) = 2 ^ c := by push_cast; rfl
  rw [double, ← cast]
  generalize 2 ^ c = size at large
  rw [Int.bmod_eq_iff (by omega)]
  have divides : ((2 * size : Nat) : Int) ∣ n - (n + k) ↔ k % (2 * size) = 0 := by
    have negated : n - (n + k) = -(k : Int) := by omega
    rw [negated, Int.dvd_neg, Int.natCast_dvd_natCast, Nat.dvd_iff_mod_eq_zero]
  rw [divides]
  have half : ((2 * size : Nat) : Int) / 2 = size := by omega
  have half' : (((2 * size : Nat) : Int) + 1) / 2 = size := by omega
  rw [half, half']
  exact ⟨fun both => both.2, fun both => ⟨by omega, both⟩⟩

/-- What `%n` stores is the number consumed just if that fits and nothing else was counted. -/
theorem store_iff (size : Size) {n : Int} {k : Nat} (pos : 0 ≤ n) :
    m.store size (m.int (n + k)) = n ↔
      n < 2 ^ (countBits m size - 1) ∧ k % 2 ^ countBits m size = 0 := by
  have wide := m.int_wide
  have long := m.int_long
  cases size with
  | short =>
    have divides : 2 ^ 16 ∣ 2 ^ m.intBits := Nat.pow_dvd_pow 2 wide
    have same : m.store .short (m.int (n + k)) = (n + k).bmod (2 ^ 16) :=
      Int.bmod_bmod_of_dvd divides
    rw [same]
    exact bmod_iff pos (by decide)
  | int =>
    have same : m.store .int (m.int (n + k)) = (n + k).bmod (2 ^ m.intBits) := Int.bmod_bmod
    rw [same]
    exact bmod_iff pos (by omega)
  | longdouble =>
    have same : m.store .longdouble (m.int (n + k)) = (n + k).bmod (2 ^ m.intBits) :=
      Int.bmod_bmod
    rw [same]
    exact bmod_iff pos (by omega)
  | long =>
    have same : m.store .long (m.int (n + k)) = (n + k).bmod (2 ^ m.intBits) := by
      have positive : 0 < 2 ^ m.intBits := Nat.two_pow_pos _
      have wider : 2 ^ m.intBits ≤ 2 ^ m.longBits := Nat.pow_le_pow_right (by decide) long
      have low := Int.le_bmod (x := n + k) positive
      have high := Int.bmod_lt (x := n + k) positive
      change ((n + k).bmod (2 ^ m.intBits)).bmod (2 ^ m.longBits) = _
      exact Int.bmod_eq_of_le_mul_two (by omega) (by omega)
    rw [same]
    exact bmod_iff pos (by omega)

theorem count_turned (held : Held m s) :
    Turned m (count m spec s) (spec.noassign = true ∨ SoundCount m (spec.intSize m) s) := by
  unfold count
  cases noassign : spec.noassign with
  | true =>
    refine ⟨⟨fun _ => .inl rfl, fun _ => held.settled⟩, fun _ s' next => ?_⟩
    cases next
    exact ⟨held.counted, held.pos⟩
  | false =>
    have stored := store_iff (m := m) (spec.intSize m) (k := overrun s.reader.log) held.pos
    constructor
    · change (s.reader.acts _).Settled right ↔ _
      rw [Reader.settled_acts, List.forall_mem_singleton, held.counted]
      change _ ∧ m.store _ _ = _ ↔ _
      rw [stored, and_iff_right held.settled]
      exact (or_iff_right Bool.false_ne_true).symm
    · intro _ s' next
      cases next
      refine ⟨?_, (consumed_acts _ _).symm ▸ held.pos⟩
      exact held.counted

/-! ## The turns -/

theorem get_facing (held : Held m s) (some : s.get.ic ≠ EOF) :
    Facing m s.reader.unread (consumed s.reader.log) (overrun s.reader.log) (s.get.count m 1) := by
  have asked : Asked EOF _ _ _ s.get.ic s.get.reader := held.settled.get
  refine ⟨asked, (Reader.get_acts right s.reader).mpr held.settled.acts, ?_, held.pos, some⟩
  change m.int (s.nrchars + 1) = _
  rw [held.counted, int_add]

theorem blanks_asked (held : Held m s) :
    Asked EOF (s.reader.unread.dropWhile (isspace m))
      (consumed s.reader.log + (s.reader.unread.takeWhile (isspace m)).length)
      (overrun s.reader.log) (s.blanks m).ic (s.blanks m).reader ∧
    Acts right (s.blanks m).reader.log ∧
    (s.blanks m).nrchars = m.int (consumed s.reader.log +
      (s.reader.unread.takeWhile (isspace m)).length + overrun s.reader.log + 1) := by
  obtain ⟨asked, (calls : (skip EOF (isspace m) s.reader.unread s.reader.log 0).2.2 =
    0 + (s.reader.unread.takeWhile (isspace m)).length + 1)⟩ := skip_spec (isspace m) 0 held.settled
  refine ⟨asked, (skip_acts right _ _ _ 0).mpr held.settled.acts, ?_⟩
  change m.int (s.nrchars + ((skip EOF (isspace m) s.reader.unread s.reader.log 0).2.2 : Nat)) = _
  rw [calls, held.counted, int_add]
  congr 1
  omega

theorem blanks_facing (held : Held m s) (some : (s.blanks m).ic ≠ EOF) :
    Facing m (s.reader.unread.dropWhile (isspace m))
      (consumed s.reader.log + (s.reader.unread.takeWhile (isspace m)).length)
      (overrun s.reader.log) (s.blanks m) := by
  obtain ⟨asked, acts, counted⟩ := blanks_asked held
  have pos := held.pos
  exact ⟨asked, acts, counted, by omega, some⟩

/-- A conversion that finds the end of the input, or what looks like it. -/
theorem ended_turned (asked : Asked EOF text base excess s.ic s.reader) (acts : Acts right s.reader.log)
    (last : s.ic = EOF) (value : Int) (sound : Prop) :
    Turned m (.stop s value) (Begins text sound) where
  settled := by
    have head := asked.head
    change s.reader.Settled right ↔ _
    rw [asked.settled_iff right, and_iff_left acts]
    refine ⟨.inl, fun holds => ?_⟩
    cases text with
    | nil => rfl
    | cons c rest =>
      have some : c ≠ EOF := fun same =>
        (holds.resolve_left (List.cons_ne_nil c rest)).1 (congrArg Option.some same)
      exact absurd (head.symm.trans last) some
  counted _ s' next := by cases next

theorem begins_iff (facing : Facing m text base excess s) : Begins text sound ↔ sound :=
  ⟨fun holds => (holds.resolve_left facing.ne_nil).2, fun holds => .inr ⟨facing.kept, holds⟩⟩

/-- A conversion begins with a character, or it stops at the end of the input. -/
theorem begins_turned {s' : State} {t : Turn} (asked : Asked EOF text base excess s.ic s.reader)
    (acts : Acts right s.reader.log) (facing : s.ic ≠ EOF → Facing m text base excess s') (value : Int)
    (turned : Facing m text base excess s' → Turned m t sound) :
    Turned m (if s.ic = EOF then .stop s value else t) (Begins text sound) := by
  split
  next last => exact ended_turned asked acts last value sound
  next some =>
    have here := facing some
    exact (turned here).congr (begins_iff here).symm

theorem conversion_turned (held : Held m s) :
    Turned m (conversion m spec s) (SoundConversion m spec s) := by
  have got : Asked EOF s.reader.unread (consumed s.reader.log) (overrun s.reader.log) s.get.ic
    s.get.reader := held.settled.get
  have gotActs : Acts right s.get.reader.log :=
    (Reader.get_acts right s.reader).mpr held.settled.acts
  obtain ⟨skipped, skippedActs, -⟩ := blanks_asked held
  unfold conversion SoundConversion
  cases kindOf m spec.kind with
  | count => exact count_turned held
  | chars => exact begins_turned got gotActs (get_facing held) _ chars_turned
  | scanset => exact begins_turned got gotActs (get_facing held) _ scanset_turned
  | integer => exact begins_turned skipped skippedActs (blanks_facing held) _ integer_turned
  | float => exact begins_turned skipped skippedActs (blanks_facing held) _ float_turned
  | string => exact begins_turned skipped skippedActs (blanks_facing held) _ string_turned
  | other =>
    refine (begins_turned skipped skippedActs (blanks_facing held) _ fun facing =>
      facing.stop _ not_false).congr ?_
    simp [Begins]

theorem headD_of_head? {text : List Int} {c d : Int} (head : text.head? = some c) :
    text.headD d = c := by
  rw [List.headD_eq_head?_getD, head]
  rfl

theorem taken_turned {r : Input} {c n : Int} (asked : Asked EOF text base excess c r)
    (acts : Acts right r.log) (counted : n = m.int (base + excess + 1)) (pos : 0 ≤ base)
    {format : List Int} {conv done : Nat} {ic : Int} (holds : sound) :
    Turned m (.next ⟨format, r.take c, n, conv, done, ic⟩) sound := by
  obtain ⟨settled, count⟩ := asked.take acts
  refine ⟨⟨fun _ => holds, fun _ => settled⟩, fun _ s' next => ?_⟩
  cases next
  have count' : consumed (r.take c).log = base + text.head?.toList.length := asked.count
  change n = m.int (consumed (r.take c).log + overrun (r.take c).log) ∧ 0 ≤ consumed (r.take c).log
  rw [count]
  exact ⟨counted, by omega⟩

/-- One turn keeps the log clean just if it is sound. -/
theorem turn_turned (held : Held m s) : Turned m (turn m s) (Sound m s) := by
  obtain ⟨skipped, skippedActs, skippedCount⟩ := blanks_asked held
  have got : Asked EOF s.reader.unread (consumed s.reader.log) (overrun s.reader.log) s.get.ic
    s.get.reader := held.settled.get
  have gotActs : Acts right s.get.reader.log :=
    (Reader.get_acts right s.reader).mpr held.settled.acts
  have gotCount : (s.get.count m 1).nrchars =
      m.int (consumed s.reader.log + overrun s.reader.log + 1) := by
    change m.int (s.nrchars + 1) = _
    rw [held.counted, int_add]
  have pos := held.pos
  unfold turn Sound
  dsimp only
  split
  · obtain ⟨settled, count, excess⟩ := skipped.unget_iff right
    rw [← unget_reader] at settled count excess
    refine ⟨settled.trans (and_iff_left skippedActs), fun kept s' next => ?_⟩
    cases next
    change m.int ((s.blanks m).unget.nrchars + -1) = m.int (consumed (s.blanks m).unget.reader.log +
      overrun (s.blanks m).unget.reader.log) ∧ 0 ≤ consumed (s.blanks m).unget.reader.log
    have same : (s.blanks m).unget.nrchars = (s.blanks m).nrchars := by
      unfold State.unget
      split <;> rfl
    rw [same, skippedCount, int_add, count kept, excess]
    constructor
    · congr 1
      omega
    · omega
  split
  · exact ⟨⟨fun _ => trivial, fun _ => held.settled⟩, fun _ s' next => by cases next⟩
  split
  · split
    next same =>
      refine taken_turned got gotActs gotCount pos ?_
      rcases or_not (p := NotLost s.reader.unread) with kept | lost
      · exact .inl kept
      · have last : s.get.ic = EOF := got.head.trans (headD_of_head? (not_not.mp lost))
        exact .inr (same.symm.trans last)
    next other =>
      obtain ⟨settled, -, -⟩ := got.unget_iff right
      refine ⟨?_, fun _ s' next => by cases next⟩
      change (s.get.count m 1).unget.reader.Settled right ↔ _
      rw [unget_reader]
      refine settled.trans ((and_iff_left gotActs).trans ⟨.inl, fun holds => ?_⟩)
      rcases holds with kept | last
      · exact kept
      · exact fun lost => other ((got.head.trans (headD_of_head? lost)).trans last.symm)
  split
  · split
    next same =>
      refine taken_turned got gotActs gotCount pos ?_
      have head := got.head.symm.trans same
      cases unread : s.reader.unread with
      | nil => exact .inl rfl
      | cons c rest =>
        rw [unread] at head
        exact .inr (congrArg some head)
    next other =>
      refine ⟨?_, fun _ s' next => by cases next⟩
      change s.get.reader.Settled right ↔ _
      rw [got.settled_iff right, and_iff_left gotActs]
      refine ⟨.inl, fun holds => holds.resolve_right fun same => other ?_⟩
      exact got.head.trans (headD_of_head? same)
  · exact conversion_turned held

end AckFormal.Ansi.Doscan
