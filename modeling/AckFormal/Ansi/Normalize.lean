import AckFormal.Ansi.Mktime

/-!
# Fields out of their ranges

What `mktime` does to fields of any size and sign. The days are taken off by whole years before
the month is looked at, so a year counts from January to January even where the month of the
fields comes after February. The date is the one of the calendar where this does not matter.
-/

namespace AckFormal.Ansi.Time

open Lib.Spans Calendar

/-- The days from the first of January 1970 to the first of January of a year. -/
def newYear (year : Int) : Int :=
  (year - 1970) * 365 + ((year - 1) / 4 - 492) - ((year - 1) / 100 - 19) + ((year - 1) / 400 - 4)

def monthsBefore (leap : Bool) (month : Nat) : Nat := ((ytab leap).take month).sum

namespace Tm

variable (timep : Tm)

def year : Int := year0 + timep.tmYear + timep.tmMon / 12

def month : Nat := (timep.tmMon % 12).toNat

def clock : Int := (timep.tmHour * 60 + timep.tmMin) * 60 + timep.tmSec

/-- The days that the fields below the month go beyond its first. -/
def days : Int := timep.tmMday - 1 + timep.clock / 86400

/-- The days from the first of January 1970 to the day the fields mean. -/
def number : Int := newYear timep.year + monthsBefore (leapYear timep.year) timep.month + timep.days

/-- The seconds from the start of 1970 to the time the fields mean. -/
def seconds : Int :=
  (newYear timep.year + monthsBefore (leapYear timep.year) timep.month + (timep.tmMday - 1)) * 86400 +
    timep.clock

/-- The month is January or February, or the days, counted from the first of January, end in
a year that has a leap day where the year of the fields has one. -/
def Even : Prop :=
  timep.month < 2 ∨ ∀ year, newYear year ≤ newYear timep.year + timep.days →
    newYear timep.year + timep.days < newYear (year + 1) → leapYear year = leapYear timep.year

end Tm

theorem leapYear_iff_dvd (year : Int) :
    leapYear year = true ↔ 4 ∣ year ∧ (100 ∣ year → 400 ∣ year) := by
  simp only [leapYear, Int.dvd_iff_tmod_eq_zero, Bool.and_eq_true, Bool.or_eq_true, beq_iff_eq,
    bne_iff_ne]
  tauto

theorem newYear_succ (year : Int) : newYear (year + 1) = newYear year + yearSize year := by
  have leap := leapYear_iff_dvd year
  rw [newYear, newYear, Int.add_sub_cancel, yearSize]
  cases size : leapYear year with
  | true =>
    obtain ⟨four, century⟩ := leap.mp size
    simp only [if_true]
    omega
  | false =>
    have common : ¬ (4 ∣ year ∧ (100 ∣ year → 400 ∣ year)) := by
      rw [← leap, size]
      exact Bool.false_ne_true
    simp only [Bool.false_eq_true, if_false]
    omega

theorem newYear_lt_iff {year other : Int} : newYear year < newYear other ↔ year < other := by
  refine (strictMono_int_of_lt_succ fun year => ?_).lt_iff_lt
  have positive := yearSize_pos year
  rw [newYear_succ]
  omega

theorem year_unique {number year other : Int} (from_le : newYear year ≤ number)
    (lt_next : number < newYear (year + 1)) (other_le : newYear other ≤ number)
    (lt_other : number < newYear (other + 1)) : year = other := by
  have first := newYear_lt_iff.mp (from_le.trans_lt lt_other)
  have second := newYear_lt_iff.mp (other_le.trans_lt lt_next)
  omega

theorem monthsBefore_succ {year : Int} {month size : Nat}
    (entry : monthSize year month = some size) :
    monthsBefore (leapYear year) (month + 1) = monthsBefore (leapYear year) month + size := by
  obtain ⟨inside, rfl⟩ := List.getElem?_eq_some_iff.mp entry
  exact List.sum_take_succ _ _ inside

theorem monthsBefore_all (year : Int) : monthsBefore (leapYear year) 12 = yearSize year := by
  unfold yearSize
  cases leapYear year <;> rfl

theorem monthsBefore_leap {month : Nat} (inside : month < 12) :
    monthsBefore true month = monthsBefore false month + if month < 2 then 0 else 1 := by
  revert month
  decide

theorem monthSize_some (year : Int) {month : Nat} (inside : month < 12) :
    ∃ size, monthSize year month = some size := by
  have length : (ytab (leapYear year)).length = 12 := by cases leapYear year <;> rfl
  exact ⟨_, List.getElem?_eq_getElem (length.symm ▸ inside)⟩

/-- A date in its ranges, with the days from zero on, and the number of its day. -/
structure Dated (number day tmYear : Int) (tmMon : Nat) : Prop where
  sum : newYear (year0 + tmYear) + monthsBefore (leapYear (year0 + tmYear)) tmMon + day = number
  below : tmMon < 12
  nonneg : 0 ≤ day
  inside : ∀ size, monthSize (year0 + tmYear) tmMon = some size → day < size

variable {zone : Zone} {timep : Tm}

theorem yearsBelow_spec (day tmYear : Int) :
    newYear (year0 + (yearsBelow day tmYear).2) + (yearsBelow day tmYear).1 =
      newYear (year0 + tmYear) + day ∧ 0 ≤ (yearsBelow day tmYear).1 := by
  induction day, tmYear using yearsBelow.induct with
  | case1 day tmYear negative ih =>
    have before := newYear_succ (year0 + tmYear - 1)
    rw [yearsBelow, if_pos negative]
    rw [← Int.add_sub_assoc] at ih
    rw [Int.sub_add_cancel] at before
    exact ⟨by omega, ih.2⟩
  | case2 day tmYear nonneg =>
    rw [yearsBelow, if_neg nonneg]
    exact ⟨rfl, Int.not_lt.mp nonneg⟩

theorem yearsAbove_spec (day tmYear : Int) (nonneg : 0 ≤ day) :
    newYear (year0 + (yearsAbove day tmYear).2) + (yearsAbove day tmYear).1 =
      newYear (year0 + tmYear) + day ∧ 0 ≤ (yearsAbove day tmYear).1 ∧
      (yearsAbove day tmYear).1 < yearSize (year0 + (yearsAbove day tmYear).2) := by
  induction day, tmYear using yearsAbove.induct with
  | case1 day tmYear enough ih =>
    have after := newYear_succ (year0 + tmYear)
    rw [yearsAbove, if_pos enough]
    have rest := ih (Int.sub_nonneg.mpr enough)
    rw [← Int.add_assoc] at rest
    exact ⟨by omega, rest.2⟩
  | case2 day tmYear within =>
    rw [yearsAbove, if_neg within]
    exact ⟨rfl, nonneg, Int.not_le.mp within⟩

theorem monthsAbove_of_le {day tmYear : Int} {tmMon size : Nat}
    (entry : monthSize (year0 + tmYear) tmMon = some size) (enough : size ≤ day) :
    monthsAbove day tmYear tmMon =
      if tmMon + 1 = 12 then monthsAbove (day - size) (tmYear + 1) 0
      else monthsAbove (day - size) tmYear (tmMon + 1) := by
  rw [monthsAbove]
  split
  next none => rw [entry] at none; cases none
  next found some =>
      rw [entry] at some
      cases some
      exact if_pos enough

/-- Days above the length of the month go to the next months. -/
theorem monthsAbove_spec (day tmYear : Int) (tmMon : Nat) (below : tmMon < 12) (nonneg : 0 ≤ day) :
    ∃ last year month, monthsAbove day tmYear tmMon = some (last, year, month) ∧
      Dated (newYear (year0 + tmYear) + monthsBefore (leapYear (year0 + tmYear)) tmMon + day)
        last year month := by
  induction day, tmYear, tmMon using monthsAbove.induct with
  | case1 day tmYear tmMon none =>
    obtain ⟨size, entry⟩ := monthSize_some (year0 + tmYear) below
    rw [entry] at none
    cases none
  | case2 day tmYear tmMon size entry enough december ih =>
    have whole := monthsBefore_succ entry
    have after := newYear_succ (year0 + tmYear)
    rw [december, monthsBefore_all] at whole
    obtain ⟨last, year, month, loop, dated⟩ := ih (by decide) (Int.sub_nonneg.mpr enough)
    have same : newYear (year0 + (tmYear + 1)) + monthsBefore (leapYear (year0 + (tmYear + 1))) 0 +
        (day - size) =
        newYear (year0 + tmYear) + monthsBefore (leapYear (year0 + tmYear)) tmMon + day := by
      rw [← Int.add_assoc, after, whole]
      simp only [monthsBefore, List.take_zero, List.sum_nil]
      omega
    rw [same] at dated
    exact ⟨last, year, month, (monthsAbove_of_le entry enough).trans ((if_pos december).trans loop),
      dated⟩
  | case3 day tmYear tmMon size entry enough other ih =>
    have next := monthsBefore_succ entry
    obtain ⟨last, year, month, loop, dated⟩ := ih (by omega) (Int.sub_nonneg.mpr enough)
    rw [next, Nat.cast_add, show ∀ a b c d : Int, a + (b + c) + (d - c) = a + b + d by omega] at dated
    exact ⟨last, year, month, (monthsAbove_of_le entry enough).trans ((if_neg other).trans loop),
      dated⟩
  | case4 day tmYear tmMon size entry within =>
    refine ⟨day, tmYear, tmMon, monthsAbove_of_lt entry (Int.not_le.mp within), rfl, below, nonneg, ?_⟩
    intro found same
    rw [entry] at same
    cases same
    exact Int.not_le.mp within

theorem carry_eq (low high : Int) {size : Int} (positive : 0 < size) :
    carry low high size = (low % size, high + low / size) := by
  have least := Int.emod_nonneg low positive.ne'
  have most := Int.emod_lt_of_pos low positive
  have sign : size.sign = 1 := Int.sign_eq_one_of_pos positive
  have magnitude : (size.natAbs : Int) = size := Int.natAbs_of_nonneg positive.le
  unfold carry
  rw [Int.tmod_eq_emod, Int.tdiv_eq_ediv, sign]
  by_cases whole : 0 ≤ low ∨ size ∣ low
  · simp only [if_pos whole, Nat.cast_zero, Int.sub_zero, Int.add_zero, if_neg (Int.not_lt.mpr least)]
  · simp only [if_neg whole, magnitude, if_pos (Int.sub_neg_of_lt most), Int.sub_add_cancel,
      ← Int.add_assoc, Int.add_sub_cancel]

theorem years_spec (day tmYear : Int) : ∃ rest year,
    yearsAbove (yearsBelow day tmYear).1 (yearsBelow day tmYear).2 = (rest, year) ∧
      newYear (year0 + year) + rest = newYear (year0 + tmYear) + day ∧ 0 ≤ rest ∧
      rest < yearSize (year0 + year) := by
  obtain ⟨kept, nonneg⟩ := yearsBelow_spec day tmYear
  obtain ⟨above, positive, inside⟩ := yearsAbove_spec (yearsBelow day tmYear).1 _ nonneg
  exact ⟨_, _, rfl, above.trans kept, positive, inside⟩

/-- The day of the fields counted in a year whose February is as long as that of `leap`. -/
def Tm.numberIn (timep : Tm) (leap : Bool) : Int :=
  newYear timep.year + monthsBefore leap timep.month + timep.days

/-- The loops end, at the day counted with the February of the year that the days, counted from
the first of January, end in. -/
theorem mktime_eq (intBits : Nat) (zone : Zone) (timep : Tm) : ∃ year day tmYear tmMon,
    newYear year ≤ newYear timep.year + timep.days ∧
    newYear timep.year + timep.days < newYear (year + 1) ∧
    Dated (timep.numberIn (leapYear year)) day tmYear tmMon ∧
    mktime intBits zone timep = count intBits zone { timep with
      tmSec := timep.clock % 86400 % 60
      tmMin := timep.clock % 86400 / 60 % 60
      tmHour := timep.clock % 86400 / 3600
      tmMday := day + 1, tmMon := tmMon, tmYear := tmYear } := by
  have year : year0 + (timep.tmYear + timep.tmMon / 12) = timep.year := (Int.add_assoc _ _ _).symm
  have below : timep.month < 12 := by
    unfold Tm.month
    omega
  obtain ⟨rest, tmYear, years, kept, nonneg, inside⟩ :=
    years_spec timep.days (timep.tmYear + timep.tmMon / 12)
  obtain ⟨day, last, tmMon, months, dated⟩ := monthsAbove_spec rest tmYear timep.month below nonneg
  have days : 0 + (timep.tmHour + (timep.tmMin + timep.tmSec / 60) / 60) / 24 + (timep.tmMday - 1) =
      timep.days := by
    unfold Tm.days Tm.clock
    omega
  have second : timep.tmSec % 60 = timep.clock % 86400 % 60 := by
    unfold Tm.clock
    omega
  have minute : (timep.tmMin + timep.tmSec / 60) % 60 = timep.clock % 86400 / 60 % 60 := by
    unfold Tm.clock
    omega
  have hour : (timep.tmHour + (timep.tmMin + timep.tmSec / 60) / 60) % 24 =
      timep.clock % 86400 / 3600 := by
    unfold Tm.clock
    omega
  rw [year] at kept
  have number : newYear (year0 + tmYear) + monthsBefore (leapYear (year0 + tmYear)) timep.month +
      rest = timep.numberIn (leapYear (year0 + tmYear)) := by
    unfold Tm.numberIn
    omega
  rw [number] at dated
  refine ⟨year0 + tmYear, day, last, tmMon, by omega, ?_, dated, ?_⟩
  · rw [newYear_succ]
    omega
  · unfold mktime
    simp only [carry_eq _ _ (show (0 : Int) < 60 by decide), carry_eq _ _ (show (0 : Int) < 24 by decide),
      carry_eq _ _ (show (0 : Int) < 12 by decide), days, years, second, minute, hour]
    rw [show (timep.tmMon % 12).toNat = timep.month from rfl, months]
    rfl

theorem adjust_snd (intBits : Nat) (plain : timep.tmIsdst = 0) (seconds overflow : Nat) :
    (adjust intBits zone timep seconds overflow).2 = timep := by
  simp only [adjust, plain, Int.lt_irrefl, if_false]
  split_ifs <;> rfl

/-- The counting of the days and the seconds leaves the date as it is. -/
theorem count_date {intBits : Nat} {result : Int × Tm}
    (counted : count intBits zone timep = some result) (plain : timep.tmIsdst = 0) :
    result.2.tmMday = timep.tmMday ∧ result.2.tmMon = timep.tmMon ∧
      result.2.tmYear = timep.tmYear := by
  unfold count at counted
  split at counted
  · cases counted
    exact ⟨rfl, rfl, rfl⟩
  · dsimp only at counted
    cases months : daysToMonth (timep.tmYear + year0) timep.tmMon.toNat with
    | none =>
      rw [months] at counted
      cases counted
    | some yday =>
      simp only [months, Option.bind_eq_bind, Option.bind_some, Option.some.injEq] at counted
      rw [← counted, adjust_snd]
      · exact ⟨rfl, rfl, rfl⟩
      · exact plain

theorem count_days (intBits : Nat) (zone : Zone) (wday yday : Int)
    (later : ¬ timep.tmYear < epochYr - year0) :
    count intBits zone { timep with tmWday := wday, tmYday := yday } =
      count intBits zone timep := by
  unfold count
  rw [if_neg later, if_neg later]

theorem newYear_eq (elapsed : Nat) : newYear ((1970 + elapsed : Nat) : Int) =
    before (fun elapsed => yearDays (1970 + elapsed)) elapsed := by
  induction elapsed with
  | zero => rfl
  | succ elapsed ih =>
    have next := newYear_succ ((1970 + elapsed : Nat) : Int)
    rw [ih, yearSize_eq] at next
    rw [before_succ, Nat.cast_add (before _ _), ← next]
    rfl

theorem monthsBefore_eq (year : Nat) {month : Nat} (inside : month ≤ 12) :
    monthsBefore (leapYear year) month = before (monthDays year) month := by
  induction month with
  | zero => rfl
  | succ month ih =>
    rw [monthsBefore_succ (monthSize_eq year month inside), before_succ,
      ih (Nat.le_of_succ_le inside)]

theorem monthsBefore_mono (leap : Bool) {few many : Nat} (inside : many < 13) (more : few ≤ many) :
    monthsBefore leap few ≤ monthsBefore leap many := by
  have all : ∀ leap, ∀ many < 13, ∀ few ≤ many, monthsBefore leap few ≤ monthsBefore leap many := by
    decide
  exact all leap many inside few more

theorem moment_dated (moment : Moment) :
    Dated moment.number (moment.day - 1 : Nat) moment.tm.tmYear moment.month := by
  have year : year0 + moment.tm.tmYear = (moment.year : Int) := by
    simp only [Moment.tm]
    omega
  have start : newYear (moment.year : Int) = _ := newYear_eq moment.elapsed
  refine ⟨?_, moment.month_lt, Int.natCast_nonneg _, ?_⟩
  · rw [year, start, monthsBefore_eq _ moment.month_lt.le, Moment.number, Moment.yearDay]
    omega
  · rw [year, monthSize_eq _ _ moment.month_lt]
    rintro size ⟨⟩
    exact Int.ofNat_lt.mpr moment.day_lies.inside

namespace Dated

variable {number day tmYear day' tmYear' : Int} {tmMon tmMon' : Nat}

variable (dated : Dated number day tmYear tmMon)
include dated

theorem lt_next :
    number < newYear (year0 + tmYear) + monthsBefore (leapYear (year0 + tmYear)) (tmMon + 1) := by
  obtain ⟨size, entry⟩ := monthSize_some (year0 + tmYear) dated.below
  have inside := dated.inside size entry
  have sum := dated.sum
  rw [monthsBefore_succ entry]
  omega

theorem in_year :
    newYear (year0 + tmYear) ≤ number ∧ number < newYear (year0 + tmYear + 1) := by
  have sum := dated.sum
  have nonneg := dated.nonneg
  have next := dated.lt_next
  have rest := monthsBefore_mono (leapYear (year0 + tmYear)) (by decide)
    (show tmMon + 1 ≤ 12 from dated.below)
  rw [monthsBefore_all] at rest
  rw [newYear_succ]
  omega

theorem month_le (other : Dated number day' tmYear tmMon') :
    tmMon ≤ tmMon' := by
  by_contra later
  have rest := monthsBefore_mono (leapYear (year0 + tmYear)) (by have := dated.below; omega)
    (show tmMon' + 1 ≤ tmMon from Nat.lt_of_not_le later)
  have sum := dated.sum
  have nonneg := dated.nonneg
  have next := other.lt_next
  omega

theorem unique (other : Dated number day' tmYear' tmMon') :
    day = day' ∧ tmYear = tmYear' ∧ tmMon = tmMon' := by
  have year := year_unique dated.in_year.1 dated.in_year.2 other.in_year.1 other.in_year.2
  obtain rfl : tmYear = tmYear' := by omega
  obtain rfl := Nat.le_antisymm (dated.month_le other) (other.month_le dated)
  have sum := dated.sum
  have same := other.sum
  exact ⟨by omega, rfl, rfl⟩

end Dated

theorem numberIn_eq_iff (leap : Bool) :
    timep.numberIn leap = timep.number ↔ timep.month < 2 ∨ leap = leapYear timep.year := by
  have below : timep.month < 12 := by
    unfold Tm.month
    omega
  have counted := monthsBefore_leap below
  unfold Tm.numberIn Tm.number
  cases leap <;> cases leapYear timep.year <;> simp <;> split at counted <;> omega

theorem even_iff {year : Int} (from_le : newYear year ≤ newYear timep.year + timep.days)
    (lt_next : newYear timep.year + timep.days < newYear (year + 1)) :
    timep.Even ↔ timep.numberIn (leapYear year) = timep.number := by
  rw [numberIn_eq_iff]
  refine or_congr Iff.rfl ⟨fun all => all year from_le lt_next, ?_⟩
  intro same other other_le lt_other
  rw [← year_unique from_le lt_next other_le lt_other]
  exact same

theorem Tm.seconds_eq : timep.seconds = timep.number * 86400 + timep.clock % 86400 := by
  unfold Tm.seconds Tm.number Tm.days
  omega

variable {moment : Moment}

theorem moment_number (same : (moment.seconds : Int) = timep.seconds) :
    timep.number = moment.number ∧ timep.clock % 86400 = moment.clock := by
  have within := moment.clock_lt
  have parts : moment.seconds = moment.number * 86400 + moment.clock := rfl
  rw [Tm.seconds_eq] at same
  omega

/-- The fields lead to the date and the time they mean only where the leap days are even. -/
theorem even_of_mktime {intBits : Nat} (plain : timep.tmIsdst = 0)
    (same : (moment.seconds : Int) = timep.seconds) {value : Int}
    (made : mktime intBits zone timep = some (value, moment.tm)) : timep.Even := by
  obtain ⟨year, day, tmYear, tmMon, from_le, lt_next, dated, reduced⟩ :=
    mktime_eq intBits zone timep
  rw [reduced] at made
  obtain ⟨mday, mon, years⟩ := count_date made plain
  have other := moment_dated moment
  have counted := moment.day_pos
  simp only [Moment.tm] at mday mon years other
  obtain rfl : ((moment.day - 1 : Nat) : Int) = day := by omega
  obtain rfl := Int.natCast_inj.mp mon
  rw [years] at other
  rw [even_iff from_le lt_next, (moment_number same).1, ← dated.sum, other.sum]

theorem mktime_of_even (intBits : Nat) (zero : zone.timezone = 0) (plain : timep.tmIsdst = 0)
    (same : (moment.seconds : Int) = timep.seconds) (fits : moment.seconds < 2 ^ 31)
    (even : timep.Even) :
    mktime intBits zone timep = some ((moment.seconds : Int), moment.tm) := by
  obtain ⟨year, day, tmYear, tmMon, from_le, lt_next, dated, reduced⟩ :=
    mktime_eq intBits zone timep
  rw [(even_iff from_le lt_next).mp even, (moment_number same).1] at dated
  obtain ⟨rfl, rfl, rfl⟩ := dated.unique (moment_dated moment)
  have counted := moment.day_pos
  have mday : ((moment.day - 1 : Nat) : Int) + 1 = moment.day := by omega
  have minutes := moment.minute_lt
  have seconds := moment.second_lt
  have hour : (moment.clock : Int) / 3600 = moment.hour := by unfold Moment.clock; omega
  have minute : (moment.clock : Int) / 60 % 60 = moment.minute := by unfold Moment.clock; omega
  have second : (moment.clock : Int) % 60 = moment.second := by unfold Moment.clock; omega
  rw [reduced, (moment_number same).2, mday, hour, minute, second, plain]
  have later : ¬ moment.tm.tmYear < epochYr - year0 := by
    simp only [Moment.tm, Moment.year, epochYr]
    omega
  exact (count_days intBits zone _ _ later).trans (count_tm intBits zero fits)

/-- `mktime` gives the seconds of the fields, in their ranges again, just on even ones. -/
theorem mktime_iff_even (intBits : Nat) (zero : zone.timezone = 0) (plain : timep.tmIsdst = 0)
    (same : (moment.seconds : Int) = timep.seconds) (fits : moment.seconds < 2 ^ 31) :
    mktime intBits zone timep = some ((moment.seconds : Int), moment.tm) ↔ timep.Even :=
  ⟨even_of_mktime plain same, mktime_of_even intBits zero plain same fits⟩

def leapDay : Moment where
  elapsed := 30
  month := 1
  day := 29
  hour := 12
  minute := 0
  second := 0
  month_lt := by decide
  day_pos := by decide
  day_le := by decide
  hour_lt := by decide
  minute_lt := by decide
  second_lt := by decide

def beforeMarch : Tm := ⟨0, 0, 12, 0, 2, 100, 0, 0, 0⟩

theorem leapDay_seconds : (leapDay.seconds : Int) = beforeMarch.seconds := by decide +kernel

theorem leapDay_early : leapDay.seconds < 2 ^ 31 := by
  have early : beforeMarch.seconds < 2 ^ 31 := by decide +kernel
  rw [← leapDay_seconds] at early
  exact_mod_cast early

/-- The day before the first of March in a leap year. -/
theorem mktime_iff_even_march :
    mktime 16 ⟨0, 3600, fun tm => (3600, tm)⟩ beforeMarch =
      some ((leapDay.seconds : Int), leapDay.tm) ↔ beforeMarch.Even :=
  mktime_iff_even 16 rfl rfl leapDay_seconds leapDay_early

/-- The twenty-eighth of February comes out instead. -/
theorem march_misdated : ¬ ∀ (zone : Zone) (timep : Tm) (moment : Moment), zone.timezone = 0 →
    timep.tmIsdst = 0 → (moment.seconds : Int) = timep.seconds → moment.seconds < 2 ^ 31 →
    mktime 16 zone timep = some ((moment.seconds : Int), moment.tm) := by
  intro all
  have made := all ⟨0, 3600, fun tm => (3600, tm)⟩ beforeMarch leapDay rfl rfl leapDay_seconds
    leapDay_early
  rcases even_of_mktime rfl leapDay_seconds made with early | even
  · exact absurd early (by decide)
  · exact absurd (even 1999 (by decide) (by decide)) (by decide)

end AckFormal.Ansi.Time
