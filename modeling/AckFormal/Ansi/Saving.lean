import AckFormal.Ansi.Normalize

/-!
# The rules for the saving of daylight

The day of the year that a rule of `TZ` names, and whether a local time lies between the two
rules. The day of a `J` rule is not brought to zero, and the length looked up for the fifth
week is the one of the month after.
-/

namespace AckFormal.Ansi.Time

inductive DsType where
  | unknown
  | julian
  | zero
  | month
deriving DecidableEq

/-- The numbers are those of `ds_date`: the day, or the month, the week and the weekday. -/
structure Dsttype where
  dsType : DsType
  first : Nat
  second : Nat
  third : Nat
  dsSec : Int

def Dsttype.Parsed (dst : Dsttype) : Prop :=
  match dst.dsType with
  | .unknown => False
  | .julian => 1 ≤ dst.first ∧ dst.first ≤ 365
  | .zero => dst.first ≤ 365
  | .month => (1 ≤ dst.first ∧ dst.first ≤ 12) ∧ (1 ≤ dst.second ∧ dst.second ≤ 5) ∧ dst.third ≤ 6

def firstdayOf (timep : Tm) : Int := (timep.tmWday - timep.tmYday + 420).tmod 7

def firstSunday (timep : Tm) : Int := (timep.tmYday - timep.tmWday + 420).tmod 7

def lastSunday (day : Int) (timep : Tm) : Int :=
  let first := firstSunday timep
  let day := if 58 ≤ day ∧ leapYear (year0 + timep.tmYear) then day + 1 else day
  if day < first then first else day - (day - first).tmod 7

/-- The loop over the months starts at one and looks one entry back; its `month` ends as the
month of the rule, which then is the index of the entry after that month. -/
def dateOf (dst : Dsttype) (timep : Tm) : Option Int :=
  let year := year0 + timep.tmYear
  if dst.dsType ≠ .month then
    some (dst.first - if dst.dsType = .julian ∧ leapYear year ∧ dst.first < 58 then 1 else 0)
  else do
    let tmpday ← daysToMonth year (dst.first - 1)
    let firstday := (tmpday + firstdayOf timep).tmod 7
    let day := tmpday + ((dst.third - firstday + 7).tmod 7 + 7 * ((dst.second : Int) - 1))
    let size ← monthSize year (max 1 dst.first)
    some (if tmpday + size ≤ day then day - 7 else day)

/-- The variables that `_dstget` reads; `_daylight` is set before to whether there is a name for
the time that is saved. -/
structure Saving where
  daylight : Bool
  dstOff : Int
  dststart : Dsttype
  dstend : Dsttype

/-- The names of the zones, which a table may replace here, are left out. -/
def dstget (intBits : Nat) (saving : Saving) (timep : Tm) : Option (Nat × Tm) :=
  if saving.daylight = false then some (0, { timep with tmIsdst := 0 })
  else do
    let begindst ← if saving.dststart.dsType ≠ .unknown then dateOf saving.dststart timep
      else some (lastSunday 89 timep)
    let enddst ← if saving.dstend.dsType ≠ .unknown then dateOf saving.dstend timep
      else some (lastSunday 272 timep)
    let doDst :=
      if begindst < enddst then begindst < timep.tmYday ∧ timep.tmYday < enddst
      else begindst < timep.tmYday ∨ timep.tmYday < enddst
    let dsttranssec := if timep.tmYday = begindst then saving.dststart.dsSec else saving.dstend.dsSec
    let cursec := (timep.tmHour * 60 + timep.tmMin) * 60 + timep.tmSec
    if doDst ∨ timep.tmYday = begindst ∧ dsttranssec ≤ cursec ∨
        timep.tmYday = enddst ∧ cursec < dsttranssec then
      some ((saving.dstOff % 2 ^ intBits).toNat, { timep with tmIsdst := 1 })
    else some (0, { timep with tmIsdst := 0 })

def Tm.weekdayOf (timep : Tm) (day : Int) : Int := (timep.tmWday + (day - timep.tmYday)) % 7

def Dsttype.Names (dst : Dsttype) (timep : Tm) (day : Int) : Prop :=
  let year := year0 + timep.tmYear
  match dst.dsType with
  | .unknown => False
  | .zero => day = dst.first
  | .julian => day = if leapYear year ∧ 60 ≤ dst.first then (dst.first : Int) else dst.first - 1
  | .month => ∃ size : Nat, ∃ place : Int, monthSize year (dst.first - 1) = some size ∧
      day = monthsBefore (leapYear year) (dst.first - 1) + place ∧ 0 ≤ place ∧ place < size ∧
      timep.weekdayOf day = dst.third ∧
      if dst.second < 5 then place / 7 = (dst.second : Int) - 1 else size ≤ place + 7

def Earlier (day second day' second' : Int) : Prop := day < day' ∨ day = day' ∧ second < second'

/-- A local time lies between the start and the end, which may be in the order of either
hemisphere. -/
def Saved (begindst startSec enddst endSec : Int) (timep : Tm) : Prop :=
  let started := ¬ Earlier timep.tmYday timep.clock begindst startSec
  let unended := Earlier timep.tmYday timep.clock enddst endSec
  (Earlier begindst startSec enddst endSec → started ∧ unended) ∧
    (¬ Earlier begindst startSec enddst endSec → started ∨ unended)

/-- A rule whose day comes out: not a `J` rule but in a leap year and away from the end of
February, and no rule of December; and the fifth weekday of a month, counted from the first
of its kind, is in the month where it would be in the next. -/
def Dsttype.Exact (dst : Dsttype) (timep : Tm) : Prop :=
  let year := year0 + timep.tmYear
  match dst.dsType with
  | .unknown => False
  | .zero => True
  | .julian => leapYear year = true ∧ (dst.first < 58 ∨ 60 ≤ dst.first)
  | .month => ∃ size next : Nat, monthSize year (dst.first - 1) = some size ∧
      monthSize year dst.first = some next ∧ (dst.second < 5 ∨
        let fifth := (dst.third - timep.weekdayOf (monthsBefore (leapYear year) (dst.first - 1))) % 7
          + 28
        (size ≤ fifth ↔ next ≤ fifth))

variable {timep : Tm} {dst : Dsttype}

theorem monthSize_range {year : Int} {month size : Nat} (entry : monthSize year month = some size) :
    28 ≤ size ∧ size ≤ 31 := by
  have all : ∀ leap, ∀ size ∈ ytab leap, 28 ≤ size ∧ size ≤ 31 := by decide
  exact all _ size (List.mem_of_getElem? entry)

theorem daysToMonth_int (year : Int) {month : Nat} (inside : month ≤ 12) :
    daysToMonth year month = some (monthsBefore (leapYear year) month) := by
  induction month with
  | zero => rfl
  | succ month ih =>
    obtain ⟨size, entry⟩ := monthSize_some year inside
    simp only [daysToMonth, ih (Nat.le_of_succ_le inside), entry, Option.bind_eq_bind,
      Option.bind_some, monthsBefore_succ entry]

theorem firstdayOf_eq (weekday : 0 ≤ timep.tmWday) (yearday : timep.tmYday ≤ 365) (day : Nat) :
    (day + firstdayOf timep).tmod 7 = timep.weekdayOf day := by
  have first : firstdayOf timep = (timep.tmWday - timep.tmYday + 420) % 7 :=
    Int.tmod_eq_emod_of_nonneg (by omega)
  rw [Int.tmod_eq_emod_of_nonneg (by omega), first]
  unfold Tm.weekdayOf
  omega

/-- The weekdays before the fifth are where the formula puts them, and the fifth is one week
back where the length that is looked up says so. -/
theorem dateOf_month (month : dst.dsType = .month) (parsed : dst.Parsed)
    (weekday : 0 ≤ timep.tmWday) (yearday : timep.tmYday ≤ 365) :
    (∃ day, dateOf dst timep = some day ∧ dst.Names timep day) ↔ dst.Exact timep := by
  obtain ⟨first, second, third⟩ : (1 ≤ dst.first ∧ dst.first ≤ 12) ∧
      (1 ≤ dst.second ∧ dst.second ≤ 5) ∧ dst.third ≤ 6 := by
    simpa only [Dsttype.Parsed, month] using parsed
  obtain ⟨size, entry⟩ := monthSize_some (year0 + timep.tmYear) (show dst.first - 1 < 12 by omega)
  have days := daysToMonth_int (year0 + timep.tmYear) (show dst.first - 1 ≤ 12 by omega)
  have range := monthSize_range entry
  have weekdays : ∀ day, timep.weekdayOf day = (timep.tmWday + (day - timep.tmYday)) % 7 := fun _ => rfl
  simp only [dateOf, month, days, Dsttype.Names, Dsttype.Exact, entry, Nat.max_eq_right first.1,
    firstdayOf_eq weekday yearday, ne_eq, not_true_eq_false, if_false, Option.bind_eq_bind,
    Option.bind_some, Option.some.injEq, exists_and_left, exists_eq_left']
  generalize monthsBefore (leapYear (year0 + timep.tmYear)) (dst.first - 1) = start
  cases looked : monthSize (year0 + timep.tmYear) dst.first with
  | none => simp
  | some next =>
    have other := monthSize_range looked
    have remainder : (dst.third - timep.weekdayOf start + 7 : Int).tmod 7 =
        (dst.third - timep.weekdayOf start) % 7 := by
      rw [Int.tmod_eq_emod_of_nonneg (by rw [weekdays]; omega)]
      omega
    have least := Int.emod_nonneg (dst.third - timep.weekdayOf start) (show (7 : Int) ≠ 0 by decide)
    have most := Int.emod_lt_of_pos (dst.third - timep.weekdayOf start) (show (0 : Int) < 7 by decide)
    have named : ∀ place : Int, timep.weekdayOf (start + place) = dst.third ↔
        place % 7 = (dst.third - timep.weekdayOf start) % 7 := by
      intro place
      simp only [weekdays]
      omega
    simp only [remainder, Option.bind_some, Option.some.injEq, exists_eq_left']
    generalize (dst.third - timep.weekdayOf start) % 7 = offset at least most named ⊢
    constructor
    · rintro ⟨place, made, nonneg, inside, weekday, week⟩
      split at made <;> split at week <;> omega
    · intro exact
      split
      · refine ⟨offset + 7 * (dst.second - 1) - 7, Int.add_sub_assoc _ _ _, ?_⟩
        rw [Int.add_sub_assoc (start : Int), named]
        split <;> omega
      · refine ⟨offset + 7 * (dst.second - 1), rfl, ?_⟩
        rw [named]
        split <;> omega

theorem dateOf_iff (parsed : dst.Parsed) (weekday : 0 ≤ timep.tmWday)
    (yearday : timep.tmYday ≤ 365) :
    (∃ day, dateOf dst timep = some day ∧ dst.Names timep day) ↔ dst.Exact timep := by
  cases type : dst.dsType with
  | unknown => simp only [Dsttype.Names, Dsttype.Exact, type, and_false, exists_false]
  | zero => simp [dateOf, Dsttype.Names, Dsttype.Exact, type]
  | month => exact dateOf_month type parsed weekday yearday
  | julian =>
    cases leap : leapYear (year0 + timep.tmYear) <;>
      simp [dateOf, Dsttype.Names, Dsttype.Exact, type, leap] <;> omega

theorem Dsttype.Names.unique {day other : Int} (named : dst.Names timep day)
    (again : dst.Names timep other) : day = other := by
  cases type : dst.dsType with
  | unknown =>
    simp only [Dsttype.Names, type] at named
  | zero =>
    simp only [Dsttype.Names, type] at named again
    rw [named, again]
  | julian =>
    simp only [Dsttype.Names, type] at named again
    rw [named, again]
  | month =>
    simp only [Dsttype.Names, type] at named again
    obtain ⟨size, place, entry, rfl, nonneg, inside, weekday, week⟩ := named
    obtain ⟨same, place', entry', rfl, nonneg', inside', weekday', week'⟩ := again
    rw [entry] at entry'
    cases entry'
    unfold Tm.weekdayOf at weekday weekday'
    split at week <;> split at week' <;> omega

variable {intBits : Nat} {saving : Saving} {begindst enddst : Int}

def Saving.answer (saving : Saving) (intBits : Nat) (timep : Tm) (saved : Bool) : Nat × Tm :=
  if saved then ((saving.dstOff % 2 ^ intBits).toNat, { timep with tmIsdst := 1 })
  else (0, { timep with tmIsdst := 0 })

theorem dstget_eq (daylight : saving.daylight = true) (start : saving.dststart.Parsed)
    (stop : saving.dstend.Parsed) (begins : dateOf saving.dststart timep = some begindst)
    (ends : dateOf saving.dstend timep = some enddst) (saved : Bool)
    (agrees : saved = true ↔ begindst = enddst ∨
      Saved begindst saving.dststart.dsSec enddst saving.dstend.dsSec timep) :
    dstget intBits saving timep = some (saving.answer intBits timep saved) := by
  have known : ∀ dst : Dsttype, dst.Parsed → dst.dsType ≠ .unknown := by
    intro dst parsed unknown
    simp only [Dsttype.Parsed, unknown] at parsed
  have clock : (timep.tmHour * 60 + timep.tmMin) * 60 + timep.tmSec = timep.clock := rfl
  simp only [dstget, daylight, Bool.true_eq_false, if_false, if_pos (known _ start),
    if_pos (known _ stop), begins, ends, clock, Option.bind_eq_bind, Option.bind_some]
  have reached : saved = true ↔ (if begindst < enddst then
        begindst < timep.tmYday ∧ timep.tmYday < enddst
      else begindst < timep.tmYday ∨ timep.tmYday < enddst) ∨
      timep.tmYday = begindst ∧
        (if timep.tmYday = begindst then saving.dststart.dsSec else saving.dstend.dsSec) ≤ timep.clock ∨
      timep.tmYday = enddst ∧ timep.clock <
        if timep.tmYday = begindst then saving.dststart.dsSec else saving.dstend.dsSec := by
    rw [agrees]
    unfold Saved Earlier
    split <;> split <;> omega
  cases saved with
  | true => exact if_pos (reached.mp rfl)
  | false => exact if_neg fun saved => Bool.false_ne_true (reached.mpr saved)

/-- Both days are the ones that the rules name, and the time is saved between them. -/
def Saving.Follows (saving : Saving) (intBits : Nat) (timep : Tm) : Prop :=
  ∃ begindst enddst, dateOf saving.dststart timep = some begindst ∧
    saving.dststart.Names timep begindst ∧ dateOf saving.dstend timep = some enddst ∧
    saving.dstend.Names timep enddst ∧ ∀ saved : Bool, (saved = true ↔
      Saved begindst saving.dststart.dsSec enddst saving.dstend.dsSec timep) →
      dstget intBits saving timep = some (saving.answer intBits timep saved)

/-- The two rules are followed if and only if the days of both come out, and where they name
the same day, the time is one that is saved. -/
theorem follows_iff_exact (intBits : Nat) (daylight : saving.daylight = true)
    (start : saving.dststart.Parsed) (stop : saving.dstend.Parsed) (weekday : 0 ≤ timep.tmWday)
    (yearday : timep.tmYday ≤ 365) :
    saving.Follows intBits timep ↔ saving.dststart.Exact timep ∧ saving.dstend.Exact timep ∧
      ∀ day, saving.dststart.Names timep day → saving.dstend.Names timep day →
        Saved day saving.dststart.dsSec day saving.dstend.dsSec timep := by
  constructor
  · rintro ⟨begindst, enddst, begins, first, ends, last, follows⟩
    refine ⟨(dateOf_iff start weekday yearday).mp ⟨_, begins, first⟩,
      (dateOf_iff stop weekday yearday).mp ⟨_, ends, last⟩, ?_⟩
    intro day named again
    obtain rfl := named.unique first
    obtain rfl := again.unique last
    by_contra unsaved
    have off := follows false ⟨nofun, fun saved => absurd saved unsaved⟩
    rw [dstget_eq daylight start stop begins ends true ⟨fun _ => .inl rfl, fun _ => rfl⟩] at off
    simp [Saving.answer] at off
  · rintro ⟨first, last, together⟩
    obtain ⟨begindst, begins, named⟩ := (dateOf_iff start weekday yearday).mpr first
    obtain ⟨enddst, ends, again⟩ := (dateOf_iff stop weekday yearday).mpr last
    refine ⟨begindst, enddst, begins, named, ends, again, ?_⟩
    intro saved agrees
    refine dstget_eq daylight start stop begins ends saved (agrees.trans ⟨.inr, ?_⟩)
    rintro (rfl | between)
    · exact together _ named again
    · exact between

def centralEurope : Saving := ⟨true, 3600, ⟨.month, 3, 5, 0, 7200⟩, ⟨.month, 10, 5, 0, 7200⟩⟩

theorem centralEurope_parsed : centralEurope.dststart.Parsed ∧ centralEurope.dstend.Parsed :=
  ⟨(by decide : (1 ≤ 3 ∧ 3 ≤ 12) ∧ (1 ≤ 5 ∧ 5 ≤ 5) ∧ 0 ≤ 6),
    (by decide : (1 ≤ 10 ∧ 10 ≤ 12) ∧ (1 ≤ 5 ∧ 5 ≤ 5) ∧ 0 ≤ 6)⟩

def newYear2013 : Tm := ⟨0, 0, 12, 1, 0, 113, 2, 0, 0⟩

/-- The rule of central Europe in 2013. -/
theorem follows_iff_exact_europe : centralEurope.Follows 16 newYear2013 ↔
    centralEurope.dststart.Exact newYear2013 ∧ centralEurope.dstend.Exact newYear2013 ∧
      ∀ day, centralEurope.dststart.Names newYear2013 day →
        centralEurope.dstend.Names newYear2013 day →
        Saved day centralEurope.dststart.dsSec day centralEurope.dstend.dsSec newYear2013 :=
  follows_iff_exact 16 rfl centralEurope_parsed.1 centralEurope_parsed.2 (by decide) (by decide)

/-- The last Sunday of March 2013 is the thirty-first; the one before it comes out. -/
theorem march_week_early : ¬ ∀ (saving : Saving) (timep : Tm), saving.daylight = true →
    saving.dststart.Parsed → saving.dstend.Parsed → 0 ≤ timep.tmWday → timep.tmYday ≤ 365 →
    saving.Follows 16 timep := by
  intro all
  obtain ⟨begindst, enddst, begins, named, -⟩ := all centralEurope newYear2013 rfl
    centralEurope_parsed.1 centralEurope_parsed.2 (by decide) (by decide)
  obtain ⟨size, place, entry, day, nonneg, inside, weekday, week⟩ := named
  have march : monthSize (year0 + newYear2013.tmYear) 2 = some 31 := by decide
  have early : dateOf centralEurope.dststart newYear2013 = some 82 := by decide
  have start : monthsBefore (leapYear (year0 + newYear2013.tmYear)) 2 = 59 := by decide
  rw [early] at begins
  cases begins
  cases march.symm.trans entry
  rw [show centralEurope.dststart.first - 1 = 2 from rfl, start] at day
  simp only [centralEurope, Nat.lt_irrefl, if_false] at week
  omega

end AckFormal.Ansi.Time
