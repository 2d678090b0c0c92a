import AckFormal.Ansi.Gmtime

/-!
# Broken-down time to calendar time

`mktime` of the C library, which brings the fields into their ranges and then counts the days
by a closed formula. Arithmetic on `int` that overflows is undefined and is not modelled.
-/

namespace AckFormal.Ansi.Time

open Lib.Spans Calendar

/-- The variables of the time zone, as `_tzset` leaves them, and `_dstget`, which may set
`tm_isdst`. -/
structure Zone where
  timezone : Int
  dstOff : Int
  dstget : Tm → Nat × Tm

def longMax : Int := 2147483647
def timeMax : Nat := 4294967295

/-- Brings the lower of two fields into its range and carries to the higher one. -/
def carry (low high size : Int) : Int × Int :=
  let rest := low.tmod size
  let next := high + low.tdiv size
  if rest < 0 then (rest + size, next - 1) else (rest, next)

def yearsBelow (day tmYear : Int) : Int × Int :=
  if day < 0 then yearsBelow (day + yearSize (year0 + tmYear - 1)) (tmYear - 1) else (day, tmYear)
termination_by (-day).toNat
decreasing_by
  have positive := yearSize_pos (year0 + tmYear - 1)
  omega

def yearsAbove (day tmYear : Int) : Int × Int :=
  if yearSize (year0 + tmYear) ≤ day then
    yearsAbove (day - yearSize (year0 + tmYear)) (tmYear + 1)
  else (day, tmYear)
termination_by day.toNat
decreasing_by
  have positive := yearSize_pos (year0 + tmYear)
  omega

variable {size value : Nat} {moment : Moment} {day tmYear : Int} {zone : Zone}

theorem monthSize_pos {year : Int} {month : Nat} (entry : monthSize year month = some size) :
    0 < size := by
  have member : size ∈ ytab (leapYear year) := List.mem_of_getElem? entry
  have all : ∀ leap, ∀ size ∈ ytab leap, 0 < size := by decide
  exact all _ size member

/-- `while (day >= _ytab[..][..])`, with `++(timep->tm_mon) == 12` in the middle of it. -/
def monthsAbove (day tmYear : Int) (tmMon : Nat) : Option (Int × Int × Nat) :=
  match entry : monthSize (year0 + tmYear) tmMon with
  | none => none
  | some size =>
    if size ≤ day then
      if tmMon + 1 = 12 then monthsAbove (day - size) (tmYear + 1) 0
      else monthsAbove (day - size) tmYear (tmMon + 1)
    else some (day, tmYear, tmMon)
termination_by day.toNat
decreasing_by
  all_goals
    have positive := monthSize_pos entry
    omega

/-- The leap days of one rule since 1970: one for every full period, and one more where the
year lies past a multiple of the period that the epoch lies before. -/
def correction (tmYear period : Int) : Int :=
  (tmYear - epochYr).tdiv period +
    if tmYear.tmod period ≠ 0 ∧ tmYear.tmod period < epochYr.tmod period then 1 else 0

/-- The days from the epoch to the start of a year, with the number of overflows. -/
def daysToYear (tmYear : Int) : Int × Nat :=
  let overflow := if longMax.tdiv 365 < tmYear - epochYr then 1 else 0
  let day := long ((tmYear - epochYr) * 365)
  let overflow := if longMax - day < (tmYear - epochYr).tdiv 4 + 1 then overflow + 1 else overflow
  let day := long (day + correction tmYear 4)
  let day := long (day - correction tmYear 100)
  let day := long (day + correction tmYear 400)
  (day, overflow)

def daysToMonth (year : Int) : Nat → Option Nat
  | 0 => some 0
  | month + 1 => do
      let yday ← daysToMonth year month
      let size ← monthSize year month
      some (yday + size)

/-- Takes the zone and the saving of daylight into account and checks what came out. -/
def adjust (intBits : Nat) (zone : Zone) (timep : Tm) (seconds overflow : Nat) : Int × Tm :=
  let overflow :=
    if (0 < zone.timezone ∧ ulong (timeMax - zone.timezone) < seconds) ∨
        (zone.timezone < 0 ∧ seconds < ulong (-zone.timezone)) then overflow + 1
    else overflow
  let seconds := ulong (seconds + zone.timezone)
  let (dst, timep) :=
    if timep.tmIsdst < 0 then zone.dstget timep
    else if timep.tmIsdst ≠ 0 then ((zone.dstOff % 2 ^ intBits).toNat, timep)
    else (0, timep)
  let overflow := if seconds < dst then overflow + 1 else overflow
  let seconds := ulong (seconds - dst)
  if overflow ≠ 0 then (-1, timep)
  else if ulong (long seconds) ≠ seconds then (-1, timep)
  else (long seconds, timep)

def count (intBits : Nat) (zone : Zone) (timep : Tm) : Option (Int × Tm) :=
  if timep.tmYear < epochYr - year0 then some (-1, timep)
  else do
    let tmYear := timep.tmYear + year0
    let (day, overflow) := daysToYear tmYear
    let yday ← daysToMonth tmYear timep.tmMon.toNat
    let yday := yday + (timep.tmMday - 1)
    let overflow := if long (day + yday) < 0 then overflow + 1 else overflow
    let day := long (day + yday)
    let timep := { timep with tmYday := yday, tmWday := (day + 4).tmod 7 }
    let seconds := ulong ((timep.tmHour * 60 + timep.tmMin) * 60 + timep.tmSec)
    let overflow := if ulong (timeMax - seconds) / secsDay < ulong day then overflow + 1 else overflow
    let seconds := ulong (seconds + long (day * secsDay))
    some (adjust intBits zone timep seconds overflow)

def mktime (intBits : Nat) (zone : Zone) (timep : Tm) : Option (Int × Tm) := do
  let (tmSec, tmMin) := carry timep.tmSec timep.tmMin 60
  let (tmMin, tmHour) := carry tmMin timep.tmHour 60
  let (tmHour, day) := carry tmHour 0 24
  let (tmMon, tmYear) := carry timep.tmMon timep.tmYear 12
  let day := day + (timep.tmMday - 1)
  let (day, tmYear) := yearsBelow day tmYear
  let (day, tmYear) := yearsAbove day tmYear
  let (day, tmYear, tmMon) ← monthsAbove day tmYear tmMon.toNat
  count intBits zone { timep with
    tmSec := tmSec, tmMin := tmMin, tmHour := tmHour, tmMday := day + 1, tmMon := tmMon,
    tmYear := tmYear }

theorem long_of_fits {value : Int} (lower : -2147483648 ≤ value) (upper : value ≤ longMax) :
    long value = value := by
  unfold longMax at upper
  unfold long
  rw [Int.bmod_def]
  split <;> omega

theorem ulong_of_fits (upper : value ≤ timeMax) : ulong value = value := by
  unfold ulong timeMax at *
  omega

theorem carry_of_lt {low high size : Int} (lower : 0 ≤ low) (upper : low < size) :
    carry low high size = (low, high) := by
  have rest : low.tmod size = low := Int.tmod_eq_of_lt lower upper
  have quotient : low.tdiv size = 0 := Int.tdiv_eq_zero_of_lt lower upper
  simp only [carry, rest, quotient, Int.add_zero, if_neg (Int.not_lt.mpr lower)]

theorem carry_of_natCast_lt {low : Nat} {high : Int} (upper : low < size) :
    carry low high size = ((low : Int), high) :=
  carry_of_lt (Int.natCast_nonneg low) (Int.ofNat_lt.mpr upper)

theorem correction_eq (elapsed period : Nat) :
    correction ((1970 + elapsed : Nat) : Int) period = (elapsed / period : Nat) +
      if (1970 + elapsed) % period ≠ 0 ∧ (1970 + elapsed) % period < 1970 % period then 1 else 0 := by
  have since : ((1970 + elapsed : Nat) : Int) - epochYr = (elapsed : Nat) := by
    unfold epochYr
    omega
  have quotient : (elapsed : Int).tdiv period = (elapsed / period : Nat) := by
    exact (Int.natCast_ediv elapsed period).symm
  have epoch : epochYr.tmod period = (1970 % period : Nat) := tmod_natCast 1970 period
  have differs : (((1970 + elapsed) % period : Nat) : Int) ≠ 0 ↔ (1970 + elapsed) % period ≠ 0 :=
    not_congr Int.natCast_eq_zero
  unfold correction
  simp only [since, quotient, epoch, tmod_natCast, Int.ofNat_lt, differs]

theorem correction_succ (elapsed period : Nat)
    (rule : period = 4 ∨ period = 100 ∨ period = 400) :
    correction ((1970 + (elapsed + 1) : Nat) : Int) period =
      correction ((1970 + elapsed : Nat) : Int) period + if period ∣ 1970 + elapsed then 1 else 0 := by
  simp only [correction_eq]
  rcases rule with rfl | rfl | rfl <;> omega

theorem yearDays_eq (year : Nat) :
    (yearDays year : Int) = 365 + (if 4 ∣ year then 1 else 0) - (if 100 ∣ year then 1 else 0) +
      if 400 ∣ year then 1 else 0 := by
  by_cases leap : IsLeap year
  · rw [yearDays, if_pos leap]
    unfold IsLeap at leap
    split_ifs <;> omega
  · rw [yearDays, if_neg leap]
    unfold IsLeap at leap
    split_ifs <;> omega

/-- The closed formula counts the days that the loop over the years takes off. -/
theorem formula_eq (elapsed : Nat) :
    (elapsed : Int) * 365 + correction ((1970 + elapsed : Nat) : Int) 4 -
        correction ((1970 + elapsed : Nat) : Int) 100 +
        correction ((1970 + elapsed : Nat) : Int) 400 =
      before (fun elapsed => yearDays (1970 + elapsed)) elapsed := by
  induction elapsed with
  | zero => rfl
  | succ elapsed ih =>
    have four := correction_succ elapsed 4 (.inl rfl)
    have hundred := correction_succ elapsed 100 (.inr (.inl rfl))
    have fourHundred := correction_succ elapsed 400 (.inr (.inr rfl))
    have year := yearDays_eq (1970 + elapsed)
    simp only [Nat.cast_ofNat] at four hundred fourHundred
    rw [before_succ, Nat.cast_add (before _ _), ← ih, year, four, hundred, fourHundred]
    omega

theorem elapsed_le (fits : moment.seconds < 2 ^ 32) : moment.elapsed ≤ 137 := by
  have days : moment.number < before (fun elapsed => yearDays (1970 + elapsed)) 138 := by
    have covered : 50000 < before (fun elapsed => yearDays (1970 + elapsed)) 138 := by decide +kernel
    have seconds : moment.number * 86400 + moment.clock < 2 ^ 32 := fits
    omega
  exact Nat.le_of_lt_succ (moment.year_lies.span_lt days)

theorem correction_range (elapsed period : Nat) :
    0 ≤ correction ((1970 + elapsed : Nat) : Int) period ∧
      correction ((1970 + elapsed : Nat) : Int) period ≤ elapsed + 1 := by
  have quotient := Nat.div_le_self elapsed period
  rw [correction_eq]
  generalize elapsed / period = full at quotient ⊢
  split_ifs <;> omega

/-- No step of the closed formula leaves a `long`, and no overflow is reported. -/
theorem daysToYear_eq {elapsed : Nat} (few : elapsed ≤ 137) :
    daysToYear ((1970 + elapsed : Nat) : Int) =
      (((before (fun elapsed => yearDays (1970 + elapsed)) elapsed : Nat) : Int), 0) := by
  have formula := formula_eq elapsed
  have since : ((1970 + elapsed : Nat) : Int) - epochYr = elapsed := by
    unfold epochYr
    omega
  have four := correction_range elapsed 4
  have hundred := correction_range elapsed 100
  have fourHundred := correction_range elapsed 400
  have max : longMax = 2147483647 := rfl
  have quarter : (elapsed : Int).tdiv 4 ≤ elapsed := Int.tdiv_le_self 4 (Int.natCast_nonneg elapsed)
  simp only [daysToYear, since]
  generalize correction ((1970 + elapsed : Nat) : Int) 4 = leap4 at *
  generalize correction ((1970 + elapsed : Nat) : Int) 100 = leap100 at *
  generalize correction ((1970 + elapsed : Nat) : Int) 400 = leap400 at *
  have start : long (elapsed * 365) = elapsed * 365 := long_of_fits (by omega) (by omega)
  have added : long (elapsed * 365 + leap4) = elapsed * 365 + leap4 :=
    long_of_fits (by omega) (by omega)
  have taken : long (elapsed * 365 + leap4 - leap100) = elapsed * 365 + leap4 - leap100 :=
    long_of_fits (by omega) (by omega)
  have whole : long (elapsed * 365 + leap4 - leap100 + leap400) =
      elapsed * 365 + leap4 - leap100 + leap400 := long_of_fits (by omega) (by omega)
  have share : longMax.tdiv 365 = 5883516 := by decide
  have first : ¬ longMax.tdiv 365 < elapsed := by omega
  have second : ¬ longMax - elapsed * 365 < (elapsed : Int).tdiv 4 + 1 := by omega
  rw [start, added, taken, whole, formula, if_neg first, if_neg second]

theorem daysToMonth_eq (year : Nat) {month : Nat} (inside : month ≤ 12) :
    daysToMonth year month = some (before (monthDays year) month) := by
  induction month with
  | zero => rfl
  | succ month ih =>
    have entry := monthSize_eq year month inside
    simp only [daysToMonth, ih (Nat.le_of_succ_le inside), entry, Option.bind_eq_bind,
      Option.bind_some, before_succ]

theorem yearsBelow_of_nonneg (positive : 0 ≤ day) : yearsBelow day tmYear = (day, tmYear) := by
  rw [yearsBelow, if_neg (Int.not_lt.mpr positive)]

theorem yearsAbove_of_lt (within : day < yearSize (year0 + tmYear)) :
    yearsAbove day tmYear = (day, tmYear) := by
  rw [yearsAbove, if_neg (Int.not_le.mpr within)]

theorem monthsAbove_of_lt {tmMon : Nat} (entry : monthSize (year0 + tmYear) tmMon = some size)
    (within : day < size) : monthsAbove day tmYear tmMon = some (day, tmYear, tmMon) := by
  rw [monthsAbove]
  split
  next none => rw [entry] at none; cases none
  next found some =>
      rw [entry] at some
      cases some
      exact if_neg (Int.not_le.mpr within)

theorem adjust_eq (intBits : Nat) (timep : Tm) {seconds : Nat} (zero : zone.timezone = 0)
    (plain : timep.tmIsdst = 0) (fits : seconds < 2 ^ 31) :
    adjust intBits zone timep seconds 0 = ((seconds : Int), timep) := by
  have max : timeMax = 4294967295 := rfl
  have longMax' : longMax = 2147483647 := rfl
  have same : ulong (seconds : Int) = seconds := ulong_of_fits (by omega)
  have signed : long (seconds : Int) = seconds := long_of_fits (by omega) (by omega)
  simp [adjust, zero, plain, same, signed]

theorem long_natCast (fits : value < 2 ^ 31) : long value = value :=
  long_of_fits (by omega) (by unfold longMax; omega)

theorem ulong_natCast (fits : value < 2 ^ 32) : ulong value = value :=
  ulong_of_fits (Nat.le_of_lt_succ fits)

theorem no_overflow {number clock : Nat} (within : clock < 86400)
    (fits : number * 86400 + clock < 2 ^ 31) :
    ¬ ulong ((timeMax : Int) - clock) / secsDay < ulong number := by
  have max : timeMax = 4294967295 := rfl
  have rest : ((timeMax : Int) - clock) = (timeMax - clock : Nat) := by omega
  rw [rest, ulong_of_fits (Nat.sub_le _ _), ulong_natCast (by omega), max,
    show secsDay = 86400 from rfl]
  omega

theorem seconds_sum {number clock : Nat} (fits : number * 86400 + clock < 2 ^ 31) :
    ulong ((clock : Int) + long ((number : Int) * (secsDay : Nat))) = number * 86400 + clock := by
  have product : (number : Int) * (secsDay : Nat) = (number * 86400 : Nat) := by
    rfl
  have days : number * 86400 < 2 ^ 31 := Nat.lt_of_le_of_lt (Nat.le_add_right _ _) fits
  have total : clock + number * 86400 < 2 ^ 32 := by omega
  rw [product, long_natCast days, ← Nat.cast_add, ulong_natCast total, Nat.add_comm]

section

variable (intBits : Nat) (zero : zone.timezone = 0) (fits : moment.seconds < 2 ^ 31)
include intBits zero fits

/-- The fields of a moment are counted back to its seconds. -/
theorem count_tm :
    count intBits zone moment.tm = some ((moment.seconds : Int), moment.tm) := by
  have later : ¬ moment.tm.tmYear < epochYr - year0 := by
    simp only [Moment.tm, Moment.year, epochYr]
    omega
  have year : moment.tm.tmYear + year0 = (moment.year : Int) := by
    simp only [Moment.tm]
    omega
  have years : daysToYear (moment.year : Int) =
      (((before (fun elapsed => yearDays (1970 + elapsed)) moment.elapsed : Nat) : Int), 0) :=
    daysToYear_eq (elapsed_le (Nat.lt_trans fits (by decide)))
  have months : daysToMonth (moment.year : Int) moment.tm.tmMon.toNat =
      some (before (monthDays moment.year) moment.month) :=
    daysToMonth_eq moment.year (Nat.le_of_lt moment.month_lt)
  have yday : ((before (monthDays moment.year) moment.month : Nat) : Int) +
      (moment.tm.tmMday - 1) = moment.yearDay := by
    have counted := moment.day_pos
    simp only [Moment.tm, Moment.yearDay]
    omega
  have number : ((before (fun elapsed => yearDays (1970 + elapsed)) moment.elapsed : Nat) : Int) +
      moment.yearDay = moment.number := by
    rw [Moment.number, Nat.cast_add]
  have numberLe : moment.number ≤ moment.seconds := by
    rw [← moment.seconds_div]
    exact Nat.div_le_self _ _
  have clockLt : moment.clock < 2 ^ 32 := Nat.lt_trans moment.clock_lt (by decide)
  have small : long (moment.number : Int) = moment.number :=
    long_natCast (Nat.lt_of_le_of_lt numberLe fits)
  have positive : ¬ (moment.number : Int) < 0 := Int.not_lt.mpr (Int.natCast_nonneg _)
  have weekday : ((moment.number : Int) + 4).tmod 7 = moment.weekday :=
    tmod_natCast (moment.number + 4) 7
  have clock : ulong ((moment.tm.tmHour * 60 + moment.tm.tmMin) * 60 + moment.tm.tmSec) =
      moment.clock := ulong_natCast clockLt
  have room := no_overflow moment.clock_lt fits
  have sum := seconds_sum fits
  have adjusted := adjust_eq intBits moment.tm zero rfl fits
  unfold count
  rw [if_neg later, year]
  simp only [years, months, Option.bind_eq_bind, Option.bind_some]
  rw [yday, number, small, if_neg positive, weekday, clock, if_neg room, sum]
  exact congrArg some adjusted

/-- A moment whose seconds a `time_t` holds is put together again. -/
theorem mktime_tm :
    mktime intBits zone moment.tm = some ((moment.seconds : Int), moment.tm) := by
  have second : carry moment.tm.tmSec moment.tm.tmMin 60 = (moment.tm.tmSec, moment.tm.tmMin) :=
    carry_of_natCast_lt moment.second_lt
  have minute : carry moment.tm.tmMin moment.tm.tmHour 60 = (moment.tm.tmMin, moment.tm.tmHour) :=
    carry_of_natCast_lt moment.minute_lt
  have hour : carry moment.tm.tmHour 0 24 = (moment.tm.tmHour, 0) :=
    carry_of_natCast_lt moment.hour_lt
  have month : carry moment.tm.tmMon moment.tm.tmYear 12 = (moment.tm.tmMon, moment.tm.tmYear) :=
    carry_of_natCast_lt moment.month_lt
  have year : year0 + moment.tm.tmYear = (moment.year : Int) := by
    simp only [Moment.tm]
    omega
  have day : (0 : Int) + (moment.tm.tmMday - 1) = (moment.day - 1 : Nat) := by
    have counted := moment.day_pos
    simp only [Moment.tm]
    omega
  have counted : ((moment.day - 1 : Nat) : Int) + 1 = moment.tm.tmMday := by
    omega
  have entry : monthSize (year0 + moment.tm.tmYear) moment.tm.tmMon.toNat =
      some (monthDays moment.year moment.month) := by
    rw [year]
    exact monthSize_eq moment.year moment.month moment.month_lt
  have inMonth : ((moment.day - 1 : Nat) : Int) < (monthDays moment.year moment.month : Nat) :=
    Int.ofNat_lt.mpr moment.day_lies.inside
  have inYear : ((moment.day - 1 : Nat) : Int) < (yearSize (year0 + moment.tm.tmYear) : Nat) := by
    rw [year, yearSize_eq]
    exact Int.ofNat_lt.mpr (Nat.lt_of_le_of_lt (Nat.le_add_left _ _) moment.yearDay_lt)
  unfold mktime
  simp only [second, minute, hour, month, day, yearsBelow_of_nonneg (Int.natCast_nonneg _),
    yearsAbove_of_lt inYear, monthsAbove_of_lt entry inMonth, counted, Option.bind_eq_bind,
    Option.bind_some]
  exact count_tm intBits zero fits

end

/-- Every time that a `time_t` counts from the epoch on is taken apart into the date and the
time of the day that lie so many seconds after it, and put together again. -/
theorem mktime_gmtime (intBits : Nat) (zone : Zone) (zero : zone.timezone = 0) (timer : Int)
    (lower : 0 ≤ timer) (upper : timer < 2 ^ 31) :
    ∃ moment : Moment, (moment.seconds : Int) = timer ∧ gmtime timer = some moment.tm ∧
      mktime intBits zone moment.tm = some (timer, moment.tm) := by
  obtain ⟨moment, seconds⟩ := exists_moment timer.toNat
  have same : (moment.seconds : Int) = timer := by
    rw [seconds]
    exact Int.toNat_of_nonneg lower
  have fits : moment.seconds < 2 ^ 31 := by omega
  have apart := gmtime_seconds moment (Nat.lt_trans fits (by decide))
  have together := mktime_tm intBits zero fits
  rw [same] at apart together
  exact ⟨moment, same, apart, together⟩

/-- The last second of a `long`, with saving of daylight known to the zone. -/
theorem mktime_gmtime_last :
    ∃ moment : Moment, (moment.seconds : Int) = 2147483647 ∧
      gmtime 2147483647 = some moment.tm ∧
      mktime 16 ⟨0, 3600, fun tm => (3600, { tm with tmIsdst := 1 })⟩ moment.tm =
        some (2147483647, moment.tm) :=
  mktime_gmtime 16 ⟨0, 3600, fun tm => (3600, { tm with tmIsdst := 1 })⟩ rfl 2147483647
    (by decide) (by decide)

end AckFormal.Ansi.Time
