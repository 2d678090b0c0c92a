import Mathlib.Data.List.TakeWhile

/-!
# Reading with one character of lookahead

A reader hands out the characters of its input one at a time and takes the last of them back.
What it does is kept in a log, latest event first; the log tells whether a character
was read while the one before it was neither accepted nor pushed back. A field is a run of accepted
characters of bounded width.
-/

namespace AckFormal.Lib.Lookahead

variable {α ε : Type}

/-- What a reader does; `act` is anything done in between. -/
inductive Event (α ε : Type) where
  | read (c : α)
  | eof
  | take (c : α)
  | unget (c : α)
  | act (e : ε)

abbrev Log (α ε : Type) := List (Event α ε)

/-- The character read last, until it is accepted or pushed back. -/
def pending : Log α ε → Option α
  | .read c :: _ => some c
  | .eof :: _ | .take _ :: _ | .unget _ :: _ => none
  | .act _ :: log => pending log
  | [] => none

def pushed : Log α ε → Nat
  | .read _ :: _ | .eof :: _ => 0
  | .unget _ :: log => pushed log + 1
  | .take _ :: log | .act _ :: log => pushed log
  | [] => 0

def consumed : Log α ε → Int
  | .read _ :: log => consumed log + 1
  | .unget _ :: log => consumed log - 1
  | .eof :: log | .take _ :: log | .act _ :: log => consumed log
  | [] => 0

def atEnd : Log α ε → Bool
  | .eof :: _ => true
  | _ => false

def overrun : Log α ε → Nat
  | .take _ :: log => overrun log + if atEnd log then 1 else 0
  | .read _ :: log | .eof :: log | .unget _ :: log | .act _ :: log => overrun log
  | [] => 0

/-- Nothing was read while a character was neither accepted nor pushed back. -/
def LeftUnread : Log α ε → Prop
  | .read _ :: log | .eof :: log => pending log = none ∧ LeftUnread log
  | .take _ :: log | .unget _ :: log | .act _ :: log => LeftUnread log
  | [] => True

def PushedOnce : Log α ε → Prop
  | e :: log => pushed (e :: log) ≤ 1 ∧ PushedOnce log
  | [] => True

/-- `P` holds of each act with the number of characters consumed before it. -/
def Acts (P : Int → ε → Prop) : Log α ε → Prop
  | .act e :: log => P (consumed log) e ∧ Acts P log
  | .read _ :: log | .eof :: log | .take _ :: log | .unget _ :: log => Acts P log
  | [] => True

variable {log : Log α ε} {P : Int → ε → Prop}

theorem pushed_of_pending {c : α} (waiting : pending log = some c) : pushed log = 0 := by
  induction log with
  | nil => rfl
  | cons e log ih =>
    cases e with
    | read c => rfl
    | eof => rfl
    | take c => cases waiting
    | unget c => cases waiting
    | act e => exact ih waiting

theorem overrun_take {c : α} (waiting : pending log = some c) :
    overrun (.take c :: log) = overrun log := by
  have before : atEnd log = false := by
    cases log with
    | nil => rfl
    | cons e log =>
      cases e with
      | eof => cases waiting
      | read c | take c | unget c | act e => rfl
  rw [overrun, before]
  rfl

theorem PushedOnce.pushed (once : PushedOnce log) : pushed log ≤ 1 := by
  cases log with
  | nil => exact Nat.zero_le 1
  | cons e log => exact once.1

theorem acts_true (log : Log α ε) : Acts (fun _ _ => True) log := by
  induction log with
  | nil => trivial
  | cons e log ih =>
    cases e with
    | act e => exact ⟨trivial, ih⟩
    | read c | eof | take c | unget c => exact ih

theorem acts_and {Q R : Int → ε → Prop} (each : ∀ n e, R n e ↔ P n e ∧ Q n e) (log : Log α ε) :
    Acts R log ↔ Acts P log ∧ Acts Q log := by
  induction log with
  | nil => simp [Acts]
  | cons e log ih =>
    cases e with
    | act e =>
      rw [Acts, Acts, Acts, each, ih]
      exact and_and_and_comm
    | read c | eof | take c | unget c => exact ih

theorem acts_const {P : ε → Prop} : Acts (fun _ => P) log ↔ ∀ e, .act e ∈ log → P e := by
  induction log with
  | nil => simp [Acts]
  | cons e log ih =>
    cases e with
    | act e => simp [Acts, ih]
    | read c | eof | take c | unget c => simpa [Acts] using ih

/-! ## The reader -/

structure Reader (α ε : Type) where
  unread : List α
  log : Log α ε

namespace Reader

def get (stop : α) (r : Reader α ε) : α × Reader α ε :=
  match r.unread with
  | [] => (stop, ⟨[], .eof :: r.log⟩)
  | c :: rest => (c, ⟨rest, .read c :: r.log⟩)

def unget (c : α) (r : Reader α ε) : Reader α ε := ⟨c :: r.unread, .unget c :: r.log⟩

def take (c : α) (r : Reader α ε) : Reader α ε := ⟨r.unread, .take c :: r.log⟩

def acts (es : List ε) (r : Reader α ε) : Reader α ε :=
  ⟨r.unread, es.foldl (fun log e => .act e :: log) r.log⟩

structure Settled (P : Int → ε → Prop) (r : Reader α ε) : Prop where
  none : pending r.log = none
  left : LeftUnread r.log
  once : PushedOnce r.log
  acts : Acts P r.log

end Reader

section

variable (es : List ε)
include es

theorem pending_acts (log : Log α ε) :
    pending (es.foldl (fun log e => .act e :: log) log) = pending log := by
  induction es generalizing log with
  | nil => rfl
  | cons e es ih => exact ih (.act e :: log)

theorem consumed_acts (log : Log α ε) :
    consumed (es.foldl (fun log e => .act e :: log) log) = consumed log := by
  induction es generalizing log with
  | nil => rfl
  | cons e es ih => exact ih (.act e :: log)

theorem overrun_acts (log : Log α ε) :
    overrun (es.foldl (fun log e => .act e :: log) log) = overrun log := by
  induction es generalizing log with
  | nil => rfl
  | cons e es ih => exact ih (.act e :: log)

theorem leftUnread_acts (log : Log α ε) :
    LeftUnread (es.foldl (fun log e => .act e :: log) log) ↔ LeftUnread log := by
  induction es generalizing log with
  | nil => rfl
  | cons e es ih => exact ih (.act e :: log)

theorem pushedOnce_acts (log : Log α ε) :
    PushedOnce (es.foldl (fun log e => .act e :: log) log) ↔ PushedOnce log := by
  induction es generalizing log with
  | nil => rfl
  | cons e es ih => exact (ih (.act e :: log)).trans ⟨And.right, fun once => ⟨once.pushed, once⟩⟩

theorem acts_acts (log : Log α ε) :
    Acts P (es.foldl (fun log e => .act e :: log) log) ↔
      Acts P log ∧ ∀ e ∈ es, P (consumed log) e := by
  induction es generalizing log with
  | nil => simp
  | cons e es ih =>
    rw [List.foldl_cons, ih, List.forall_mem_cons]
    change (P (consumed log) e ∧ Acts P log) ∧ _ ↔ _
    rw [and_comm (a := P (consumed log) e), and_assoc]
    rfl

theorem Reader.settled_acts (r : Reader α ε) :
    (r.acts es).Settled P ↔ r.Settled P ∧ ∀ e ∈ es, P (consumed r.log) e := by
  constructor
  · intro settled
    obtain ⟨acts, right⟩ := (acts_acts es r.log).mp settled.acts
    exact ⟨⟨(pending_acts es _).symm.trans settled.none, (leftUnread_acts es _).mp settled.left,
      (pushedOnce_acts es _).mp settled.once, acts⟩, right⟩
  · rintro ⟨settled, right⟩
    exact ⟨(pending_acts es _).trans settled.none, (leftUnread_acts es _).mpr settled.left,
      (pushedOnce_acts es _).mpr settled.once, (acts_acts es _).mpr ⟨settled.acts, right⟩⟩

end

/-! ## Skipping -/

/-- Reads until `p` fails, and counts the calls of `get`; `p` fails for `stop`. -/
def skip (stop : α) (p : α → Bool) : List α → Log α ε → Nat → α × Reader α ε × Nat
  | [], log, n => (stop, ⟨[], .eof :: log⟩, n + 1)
  | c :: rest, log, n =>
    if p c then skip stop p rest (.take c :: .read c :: log) (n + 1)
    else (c, ⟨rest, .read c :: log⟩, n + 1)

/-- What a reader has done that asked for one more character. -/
structure Asked (stop : α) (ahead : List α) (base : Int) (excess : Nat) (c : α) (r : Reader α ε) :
    Prop where
  head : c = ahead.headD stop
  unread : r.unread = ahead.tail
  waits : pending r.log = ahead.head?
  left : LeftUnread r.log
  once : PushedOnce r.log
  count : consumed r.log = base + ahead.head?.toList.length
  overran : overrun r.log = excess
  last : ahead = [] → atEnd r.log = true

variable {P : Int → ε → Prop} {stop : α}

theorem Reader.Settled.get {r : Reader α ε} (settled : r.Settled P) :
    Asked stop r.unread (consumed r.log) (overrun r.log) (r.get stop).1 (r.get stop).2 := by
  obtain ⟨unread, log⟩ := r
  cases unread with
  | nil =>
    exact ⟨rfl, rfl, rfl, ⟨settled.none, settled.left⟩, ⟨Nat.zero_le 1, settled.once⟩,
      by simp [Reader.get, consumed], rfl, fun _ => rfl⟩
  | cons c rest =>
    exact ⟨rfl, rfl, rfl, ⟨settled.none, settled.left⟩, ⟨Nat.zero_le 1, settled.once⟩,
      by simp [Reader.get, consumed], rfl, nofun⟩

theorem Reader.get_acts (P : Int → ε → Prop) (r : Reader α ε) :
    Acts P (r.get stop).2.log ↔ Acts P r.log := by
  unfold Reader.get
  split <;> rfl

theorem skip_spec (p : α → Bool) {unread : List α} (n : Nat)
    (settled : Reader.Settled P ⟨unread, log⟩) :
    Asked stop (unread.dropWhile p) (consumed log + (unread.takeWhile p).length) (overrun log)
        (skip stop p unread log n).1 (skip stop p unread log n).2.1 ∧
      (skip stop p unread log n).2.2 = n + (unread.takeWhile p).length + 1 := by
  induction unread generalizing log n with
  | nil =>
    have asked : Asked stop _ _ _ _ _ := settled.get
    exact ⟨by simpa [skip, Reader.get] using asked, rfl⟩
  | cons c rest ih =>
    unfold skip
    cases blank : p c with
    | true =>
      rw [if_pos rfl, List.dropWhile_cons_of_pos blank, List.takeWhile_cons_of_pos blank]
      have next : Reader.Settled P (⟨rest, .take c :: .read c :: log⟩ : Reader α ε) :=
        ⟨rfl, ⟨settled.none, settled.left⟩, ⟨Nat.zero_le 1, Nat.zero_le 1, settled.once⟩,
          settled.acts⟩
      obtain ⟨asked, count⟩ := ih (n + 1) next
      have longer : consumed log + ((c :: rest.takeWhile p).length : Int) =
          consumed (.take c :: .read c :: log) + (rest.takeWhile p).length := by
        simp only [consumed, List.length_cons]
        omega
      have same : overrun log = overrun (.take c :: .read c :: log : Log α ε) := rfl
      rw [longer, same]
      exact ⟨asked, by rw [count, List.length_cons]; omega⟩
    | false =>
      rw [if_neg Bool.false_ne_true, List.dropWhile_cons_of_neg (by simp [blank]),
        List.takeWhile_cons_of_neg (by simp [blank])]
      have asked : Asked stop _ _ _ _ _ := settled.get
      exact ⟨by simpa [Reader.get] using asked, rfl⟩

namespace Asked

variable {ahead : List α} {base : Int} {excess : Nat} {c : α} {r : Reader α ε}

theorem acts (asked : Asked stop ahead base excess c r) (some : ahead ≠ []) (es : List ε) :
    Asked stop ahead base excess c (r.acts es) where
  head := asked.head
  unread := asked.unread
  waits := (pending_acts es _).trans asked.waits
  left := (leftUnread_acts es _).mpr asked.left
  once := (pushedOnce_acts es _).mpr asked.once
  count := (consumed_acts es _).trans asked.count
  overran := (overrun_acts es _).trans asked.overran
  last none := absurd none some

theorem settled_iff (P : Int → ε → Prop) (asked : Asked stop ahead base excess c r) :
    r.Settled P ↔ ahead = [] ∧ Acts P r.log := by
  have waits := asked.waits
  constructor
  · intro settled
    exact ⟨List.head?_eq_none_iff.mp (waits.symm.trans settled.none), settled.acts⟩
  · rintro ⟨none, acts⟩
    exact ⟨waits.trans (List.head?_eq_none_iff.mpr none), asked.left, asked.once, acts⟩

/-- Accepting what was asked for is always in order, even at the end of the input. -/
theorem take (asked : Asked stop ahead base excess c r) (acts : Acts P r.log) :
    (r.take c).Settled P ∧
      consumed (r.take c).log + overrun (r.take c).log = base + excess + 1 := by
  refine ⟨⟨rfl, asked.left, ⟨asked.once.pushed, asked.once⟩, acts⟩, ?_⟩
  have count := asked.count
  have same := asked.overran
  change consumed r.log + ((overrun r.log + if atEnd r.log then 1 else 0 : Nat) : Int) = _
  cases ahead with
  | nil =>
    rw [asked.last rfl, if_pos rfl, count, same]
    simp
    omega
  | cons d rest =>
    have none : overrun r.log + (if atEnd r.log then 1 else 0) = overrun r.log :=
      overrun_take (c := d) asked.waits
    rw [none, count, same]
    simp
    omega

/-- Pushing back what was asked for is in order, unless it is a character that looks like the end
of the input. -/
theorem unget_iff [DecidableEq α] (P : Int → ε → Prop) (asked : Asked stop ahead base excess c r) :
    ((if c ≠ stop then r.unget c else r).Settled P ↔ ahead.head? ≠ some stop ∧ Acts P r.log) ∧
      (ahead.head? ≠ some stop → consumed (if c ≠ stop then r.unget c else r).log = base) ∧
        overrun (if c ≠ stop then r.unget c else r).log = excess := by
  have waits := asked.waits
  have head := asked.head
  have count := asked.count
  cases ahead with
  | nil =>
    rw [if_neg (by rw [head]; exact fun more => more rfl)]
    refine ⟨⟨fun settled => ⟨nofun, settled.acts⟩,
      fun both => (asked.settled_iff P).mpr ⟨rfl, both.2⟩⟩, fun _ => ?_, asked.overran⟩
    simpa using count
  | cons d rest =>
    obtain rfl : c = d := head
    by_cases last : c = stop
    · rw [if_neg (fun more => more last)]
      refine ⟨⟨fun settled => ?_, fun both => ?_⟩, fun more => ?_, asked.overran⟩
      · exact absurd ((asked.settled_iff P).mp settled).1 (List.cons_ne_nil c rest)
      · exact absurd (congrArg Option.some last) both.1
      · exact absurd (congrArg Option.some last) more
    · rw [if_pos last]
      have once : PushedOnce (r.unget c).log :=
        ⟨by rw [pushed, pushed_of_pending waits], asked.once⟩
      refine ⟨⟨fun settled => ⟨fun same => last (Option.some.inj same), settled.acts⟩,
        fun both => ⟨rfl, asked.left, once, both.2⟩⟩, fun _ => ?_, asked.overran⟩
      change consumed r.log - 1 = base
      rw [count]
      simp

end Asked

theorem skip_acts (P : Int → ε → Prop) (p : α → Bool) (unread : List α) (log : Log α ε) (n : Nat) :
    Acts P (skip stop p unread log n).2.1.log ↔ Acts P log := by
  induction unread generalizing log n with
  | nil => rfl
  | cons c rest ih =>
    unfold skip
    split
    · exact ih _ _
    · rfl

/-! ## Fields -/

/-- The collection of a field: the character ahead, the width that is left, the characters collected
so far and how many more were asked for. -/
structure Field (α ε : Type) where
  c : α
  width : Nat
  text : List α
  more : Nat
  reader : Reader α ε

namespace Field

def start (c : α) (width : Nat) (r : Reader α ε) : Field α ε := ⟨c, width, [], 0, r⟩

def acts (es : List ε) (f : Field α ε) : Field α ε := { f with reader := f.reader.acts es }

/-- The character ahead is accepted, and the next is read if there is width left for it. -/
def advance (stop : α) (f : Field α ε) : Field α ε :=
  let r := f.reader.take f.c
  if f.width - 1 = 0 then ⟨f.c, 0, f.text ++ [f.c], f.more, r⟩
  else ⟨(r.get stop).1, f.width - 1, f.text ++ [f.c], f.more + 1, (r.get stop).2⟩

/-- Accepts characters as long as `ok` holds, with acts at each test and for each one accepted. -/
def gather (stop : α) (probe : α → List ε) (ok : α → Bool) (note : Nat → α → List ε) :
    Nat → Field α ε → Field α ε
  | 0, f => f
  | n + 1, f =>
    if f.width = 0 then f
    else if ok f.c then
      gather stop probe ok note n
        ((f.acts (probe f.c ++ note f.text.length f.c)).advance stop)
    else f.acts (probe f.c)

def giveBack [DecidableEq α] (stop : α) (f : Field α ε) : Reader α ε :=
  if f.width ≠ 0 ∧ f.c ≠ stop then f.reader.unget f.c else f.reader

def ahead (f : Field α ε) : List α :=
  if f.width = 0 then []
  else match pending f.reader.log with
    | none => []
    | some c => (c :: f.reader.unread).take f.width

/-- A field under way; `base` characters were consumed before it. -/
structure Ready (stop : α) (base : Int) (excess : Nat) (f : Field α ε) : Prop where
  left : LeftUnread f.reader.log
  once : PushedOnce f.reader.log
  count : consumed f.reader.log =
    base + f.text.length + (pending f.reader.log).toList.length
  overran : overrun f.reader.log = excess
  more : f.more + (if f.width = 0 then 1 else 0) = f.text.length
  spent : f.width = 0 → pending f.reader.log = none
  here : ∀ c, pending f.reader.log = some c → c = f.c
  ended : f.width ≠ 0 → pending f.reader.log = none → f.c = stop ∧ f.reader.unread = []

variable {base : Int} {excess : Nat} {f : Field α ε} {c : α} {rest : List α}

theorem ahead_spent (spent : f.width = 0) : f.ahead = [] := by
  unfold ahead
  rw [if_pos spent]

theorem ahead_cons (ahead : f.ahead = c :: rest) :
    f.width ≠ 0 ∧ pending f.reader.log = some c ∧ rest = f.reader.unread.take (f.width - 1) := by
  unfold Field.ahead at ahead
  split at ahead
  · cases ahead
  · next some =>
      split at ahead
      · cases ahead
      · next d waiting =>
          obtain ⟨n, width⟩ := Nat.exists_eq_succ_of_ne_zero some
          rw [width, List.take_succ_cons] at ahead
          obtain ⟨rfl, rfl⟩ := List.cons.inj ahead
          exact ⟨some, waiting, by rw [width]; rfl⟩

theorem ahead_nil (ready : Ready stop base excess f) (ahead : f.ahead = []) :
    pending f.reader.log = none := by
  unfold Field.ahead at ahead
  split at ahead
  · next spent => exact ready.spent spent
  · next some =>
      split at ahead
      · assumption
      · obtain ⟨n, width⟩ := Nat.exists_eq_succ_of_ne_zero some
        rw [width] at ahead
        cases ahead

theorem ahead_length_le (f : Field α ε) : f.ahead.length ≤ f.width := by
  unfold ahead
  split
  · exact Nat.zero_le _
  · split
    · exact Nat.zero_le _
    · exact List.length_take_le _ _

/-- A field begins with the character that was asked for. -/
theorem ready_start {ahead : List α} {width : Nat} {r : Reader α ε} (some : width ≠ 0)
    (asked : Asked stop ahead base excess c r) :
    Ready stop base excess (start c width r) ∧ (start c width r).ahead = ahead.take width := by
  have waits := asked.waits
  refine ⟨⟨asked.left, asked.once, ?_, asked.overran, ?_, fun spent => absurd spent some, ?_, ?_⟩, ?_⟩
  · rw [start, asked.count, waits]
    simp
  · simp [start, some]
  · intro d waiting
    have found := waits.symm.trans waiting
    cases ahead with
    | nil => cases found
    | cons e rest =>
      cases found
      exact asked.head.symm
  · intro _ waiting
    have found := waits.symm.trans waiting
    cases ahead with
    | nil => exact ⟨asked.head, asked.unread⟩
    | cons e rest => cases found
  · unfold Field.ahead
    rw [if_neg (show (start c width r).width ≠ 0 from some)]
    change (match pending r.log with
      | none => []
      | Option.some c => (c :: r.unread).take width) = _
    rw [waits, asked.unread]
    cases ahead with
    | nil => simp
    | cons e rest => rfl

theorem Ready.acts (ready : Ready stop base excess f) (es : List ε)
    : Ready stop base excess (f.acts es) where
  left := (leftUnread_acts es _).mpr ready.left
  once := (pushedOnce_acts es _).mpr ready.once
  count := by
    have count := ready.count
    rw [← pending_acts es, ← consumed_acts es] at count
    exact count
  overran := (overrun_acts es _).trans ready.overran
  more := ready.more
  spent spent := (pending_acts es _).trans (ready.spent spent)
  here c waiting := ready.here c ((pending_acts es _).symm.trans waiting)
  ended some waiting := ready.ended some ((pending_acts es _).symm.trans waiting)

theorem acts_ahead (es : List ε) (f : Field α ε) : (f.acts es).ahead = f.ahead := by
  unfold ahead acts Reader.acts
  rw [pending_acts]

/-- One character more has been taken. -/
theorem Ready.advance (ready : Ready stop base excess f) (ahead : f.ahead = c :: rest) :
    Ready stop base excess (f.advance stop) ∧ (f.advance stop).ahead = rest ∧
      (f.advance stop).text = f.text ++ [c] ∧ (f.advance stop).width = f.width - 1 := by
  obtain ⟨some, waiting, after⟩ := ahead_cons ahead
  have same : c = f.c := ready.here c waiting
  have count := ready.count
  have more := ready.more
  rw [waiting] at count
  rw [if_neg some] at more
  simp only [Option.toList_some, List.length_singleton] at count
  have taken : Reader.Settled (fun _ _ => True) (f.reader.take f.c) :=
    ⟨rfl, ready.left, ⟨(pushed_of_pending waiting).le.trans (Nat.zero_le 1), ready.once⟩,
      acts_true _⟩
  have fewer : consumed (f.reader.take f.c).log = base + (f.text ++ [f.c]).length := by
    change consumed f.reader.log = _
    rw [count, List.length_append, List.length_singleton]
    omega
  subst same
  have same' : overrun (f.reader.take f.c).log = excess := (overrun_take waiting).trans ready.overran
  unfold Field.advance
  by_cases last : f.width - 1 = 0
  · rw [if_pos last]
    refine ⟨⟨taken.left, taken.once, ?_, same', ?_, fun _ => rfl, nofun, ?_⟩, ?_, rfl, last.symm⟩
    · rw [taken.none, fewer]
      simp
    · simp
      omega
    · exact fun some => absurd rfl some
    · rw [ahead_spent rfl, after, last, List.take_zero]
  · rw [if_neg last]
    obtain ⟨ready', ahead'⟩ := ready_start last taken.get
    refine ⟨⟨ready'.left, ready'.once, ?_, ready'.overran.trans same', ?_, ready'.spent, ready'.here,
      ready'.ended⟩, ?_, rfl, rfl⟩
    · have count' := ready'.count
      rw [fewer] at count'
      simpa [start] using count'
    · simp [last]
      omega
    · rw [after]
      exact ahead'

theorem advance_acts (P : Int → ε → Prop) (f : Field α ε) :
    Acts P (f.advance stop).reader.log ↔ Acts P f.reader.log := by
  unfold Field.advance Reader.get
  dsimp only
  split
  · rfl
  · split <;> rfl

/-- The field has the characters that `ok` holds of, as far as the width goes. -/
theorem Ready.gather (probe : α → List ε) {ok : α → Bool} (note : Nat → α → List ε)
    (refuses : ok stop = false) {n : Nat} (enough : f.width ≤ n) (ready : Ready stop base excess f) :
    Ready stop base excess (f.gather stop probe ok note n) ∧
      (f.gather stop probe ok note n).text = f.text ++ f.ahead.takeWhile ok ∧
      (f.gather stop probe ok note n).ahead = f.ahead.dropWhile ok := by
  induction n generalizing f with
  | zero =>
    have spent : f.width = 0 := Nat.le_zero.mp enough
    rw [ahead_spent spent]
    exact ⟨ready, (List.append_nil _).symm, ahead_spent spent⟩
  | succ n ih =>
    unfold Field.gather
    by_cases spent : f.width = 0
    · rw [if_pos spent, ahead_spent spent]
      exact ⟨ready, (List.append_nil _).symm, rfl⟩
    rw [if_neg spent]
    cases ahead : f.ahead with
    | nil =>
      obtain ⟨ended, -⟩ := ready.ended spent (ahead_nil ready ahead)
      rw [ended, refuses, if_neg Bool.false_ne_true]
      exact ⟨ready.acts _, (List.append_nil _).symm, (acts_ahead _ f).trans ahead⟩
    | cons c rest =>
      have here : c = f.c := ready.here c (ahead_cons ahead).2.1
      rw [← here]
      cases good : ok c with
      | true =>
        rw [if_pos rfl, List.takeWhile_cons_of_pos good, List.dropWhile_cons_of_pos good]
        obtain ⟨next, rest', text, width⟩ :=
          (ready.acts (probe c ++ note f.text.length c)).advance ((acts_ahead _ f).trans ahead)
        have fewer : ((f.acts (probe c ++ note f.text.length c)).advance stop).width ≤ n := by
          rw [width]
          exact Nat.sub_le_of_le_add enough
        obtain ⟨ready', text', ahead'⟩ := ih fewer next
        rw [rest'] at text' ahead'
        exact ⟨ready', text'.trans (by rw [text, List.append_assoc]; rfl), ahead'⟩
      | false =>
        rw [if_neg Bool.false_ne_true, List.takeWhile_cons_of_neg (by simp [good]),
          List.dropWhile_cons_of_neg (by simp [good])]
        exact ⟨ready.acts _, (List.append_nil _).symm, (acts_ahead _ f).trans ahead⟩

/-- The characters that are tested: those accepted and the one that ends the field. -/
def tested (ok : α → Bool) (ahead : List α) : List α :=
  ahead.takeWhile ok ++ (ahead.dropWhile ok).head?.toList

/-- What a gathering field logs, character by character. -/
theorem Ready.gather_acts (P : Int → ε → Prop) {probe : α → List ε} {ok : α → Bool}
    {note : Nat → α → List ε} (refuses : ok stop = false) (silent : probe stop = []) {Q : α → Prop}
    (probes : ∀ n c, (∀ e ∈ probe c, P n e) ↔ Q c) {bound : Nat}
    (notes : ∀ n i c, i < bound → ∀ e ∈ note i c, P n e) {n : Nat} (enough : f.width ≤ n)
    (ready : Ready stop base excess f) (room : f.text.length + f.ahead.length ≤ bound) :
    Acts P (f.gather stop probe ok note n).reader.log ↔
      Acts P f.reader.log ∧ ∀ c ∈ tested ok f.ahead, Q c := by
  induction n generalizing f with
  | zero =>
    have spent : f.width = 0 := Nat.le_zero.mp enough
    rw [ahead_spent spent]
    exact ⟨fun acts => ⟨acts, nofun⟩, And.left⟩
  | succ n ih =>
    unfold Field.gather
    by_cases spent : f.width = 0
    · rw [if_pos spent, ahead_spent spent]
      exact ⟨fun acts => ⟨acts, nofun⟩, And.left⟩
    rw [if_neg spent]
    cases ahead : f.ahead with
    | nil =>
      obtain ⟨ended, -⟩ := ready.ended spent (ahead_nil ready ahead)
      rw [ended, refuses, if_neg Bool.false_ne_true, silent]
      exact ⟨fun acts => ⟨acts, nofun⟩, And.left⟩
    | cons c rest =>
      have here : c = f.c := ready.here c (ahead_cons ahead).2.1
      rw [← here]
      cases good : ok c with
      | true =>
        rw [if_pos rfl]
        obtain ⟨next, rest', text, width⟩ :=
          (ready.acts (probe c ++ note f.text.length c)).advance ((acts_ahead _ f).trans ahead)
        have fewer : ((f.acts (probe c ++ note f.text.length c)).advance stop).width ≤ n := by
          rw [width]
          exact Nat.sub_le_of_le_add enough
        have room' : ((f.acts (probe c ++ note f.text.length c)).advance stop).text.length +
            ((f.acts (probe c ++ note f.text.length c)).advance stop).ahead.length ≤ bound := by
          rw [text, rest', List.length_append, List.length_singleton]
          rw [ahead, List.length_cons] at room
          exact (Nat.add_assoc _ 1 _ ▸ Nat.add_comm 1 _ ▸ room)
        have inside : f.text.length < bound := by
          rw [ahead, List.length_cons] at room
          omega
        have noted : ∀ e ∈ note f.text.length c, P (consumed f.reader.log) e :=
          notes _ _ c inside
        rw [ih fewer next room', advance_acts, rest']
        change Acts P ((f.reader.acts _).log) ∧ _ ↔ _
        have here' : tested ok (c :: rest) = c :: tested ok rest := by
          unfold tested
          rw [List.takeWhile_cons_of_pos good, List.dropWhile_cons_of_pos good]
          rfl
        rw [here', List.forall_mem_cons, Reader.acts, acts_acts, List.forall_mem_append,
          probes, and_assoc, and_assoc]
        exact ⟨fun ⟨acts, this, _, rest⟩ => ⟨acts, this, rest⟩,
          fun ⟨acts, this, rest⟩ => ⟨acts, this, noted, rest⟩⟩
      | false =>
        have here' : tested ok (c :: rest) = [c] := by
          unfold tested
          rw [List.takeWhile_cons_of_neg (by simp [good]),
            List.dropWhile_cons_of_neg (by simp [good])]
          rfl
        rw [here', List.forall_mem_singleton, ← probes (consumed f.reader.log) c]
        exact acts_acts _ _

/-- At the end of a field nothing is lost, unless the character ahead looks like the end of the
input. -/
theorem Ready.giveBack_iff [DecidableEq α] (P : Int → ε → Prop) (ready : Ready stop base excess f) :
    ((f.giveBack stop).Settled P ↔ f.ahead.head? ≠ some stop ∧ Acts P f.reader.log) ∧
      (f.ahead.head? ≠ some stop → consumed (f.giveBack stop).log = base + f.text.length) ∧
        overrun (f.giveBack stop).log = excess := by
  have count := ready.count
  unfold Field.giveBack
  cases ahead : f.ahead with
  | nil =>
    have none := ahead_nil ready ahead
    have kept : ¬(f.width ≠ 0 ∧ f.c ≠ stop) := fun both => both.2 (ready.ended both.1 none).1
    rw [if_neg kept]
    rw [none] at count
    refine ⟨⟨fun settled => ⟨nofun, settled.acts⟩,
      fun acts => ⟨none, ready.left, ready.once, acts.2⟩⟩, fun _ => ?_, ready.overran⟩
    simpa using count
  | cons c rest =>
    obtain ⟨more, waiting, -⟩ := ahead_cons ahead
    have here := ready.here c waiting
    rw [waiting] at count
    by_cases last : c = stop
    · rw [if_neg (by rw [← here]; exact fun both => both.2 last)]
      refine ⟨⟨fun settled => ?_, fun both => ?_⟩, fun other => ?_, ready.overran⟩
      · exact absurd (waiting.symm.trans settled.none) (Option.some_ne_none c)
      · exact absurd (congrArg Option.some last) both.1
      · exact absurd (congrArg Option.some last) other
    · rw [if_pos ⟨more, by rw [← here]; exact last⟩]
      have once : PushedOnce (f.reader.unget f.c).log :=
        ⟨by rw [pushed, pushed_of_pending waiting], ready.once⟩
      refine ⟨⟨fun settled => ⟨fun same => last (Option.some.inj same), settled.acts⟩,
        fun both => ⟨rfl, ready.left, once, both.2⟩⟩, fun _ => ?_, ready.overran⟩
      change consumed f.reader.log - 1 = _
      rw [count]
      simp

end Field

end AckFormal.Lib.Lookahead
