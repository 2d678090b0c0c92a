import AckFormal.Ansi.Calendar
import Mathlib.Tactic.IntervalCases

/-!
# Calendar time to broken-down time

`gmtime` of the C library and the tables of `loc_time.h`. A `long` has 32 bits; the years and
the fields of a `tm` stay far within the smallest `int`, of 16 bits.
-/

namespace AckFormal.Ansi.Time

open Lib.Spans Calendar

structure Tm where
  tmSec : Int
  tmMin : Int
  tmHour : Int
  tmMday : Int
  tmMon : Int
  tmYear : Int
  tmWday : Int
  tmYday : Int
  tmIsdst : Int

def year0 : Int := 1900
def epochYr : Int := 1970
def secsDay : Nat := 24 * 60 * 60

/-- The value of a `long` after arithmetic that went outside of it. -/
def long (value : Int) : Int := value.bmod (2 ^ 32)

def ulong (value : Int) : Nat := (value % 2 ^ 32).toNat

def leapYear (year : Int) : Bool :=
  year.tmod 4 == 0 && (year.tmod 100 != 0 || year.tmod 400 == 0)

def yearSize (year : Int) : Nat := if leapYear year then 366 else 365

def ytab : Bool → List Nat
  | false => [31, 28, 31, 30, 31, 30, 31, 31, 30, 31, 30, 31]
  | true => [31, 29, 31, 30, 31, 30, 31, 31, 30, 31, 30, 31]

/-- The entry of the table for a month; there is none outside the table. -/
def monthSize (year : Int) (month : Nat) : Option Nat := (ytab (leapYear year))[month]?

theorem yearSize_pos (year : Int) : 0 < yearSize year := by
  unfold yearSize
  split <;> decide

def years (dayno : Nat) (year : Int) : Nat × Int :=
  if yearSize year ≤ dayno then years (dayno - yearSize year) (year + 1) else (dayno, year)
termination_by dayno
decreasing_by
  have positive := yearSize_pos year
  omega

/-- The loop over the months, which leaves the table when the days do. -/
def months (year : Int) (dayno month : Nat) : Option (Nat × Nat) :=
  match entry : monthSize year month with
  | none => none
  | some size => if size ≤ dayno then months year (dayno - size) (month + 1) else some (dayno, month)
termination_by 12 - month
decreasing_by
  have inside : month < (ytab (leapYear year)).length :=
    (List.getElem?_eq_some_iff.mp entry).1
  have length : (ytab (leapYear year)).length = 12 := by cases leapYear year <;> rfl
  omega

def gmtime (timer : Int) : Option Tm := do
  let tim := ulong timer
  let dayclock := tim % secsDay
  let dayno := tim / secsDay
  let (yday, year) := years dayno epochYr
  let (mday, mon) ← months year yday 0
  some {
    tmSec := (dayclock % 60 : Nat)
    tmMin := (dayclock % 3600 / 60 : Nat)
    tmHour := (dayclock / 3600 : Nat)
    tmMday := (mday + 1 : Nat)
    tmMon := mon
    tmYear := year - year0
    tmWday := ((dayno + 4) % 7 : Nat)
    tmYday := yday
    tmIsdst := 0 }

theorem tmod_natCast (year divisor : Nat) : (year : Int).tmod divisor = (year % divisor : Nat) := by
  exact (Int.natCast_emod year divisor).symm

theorem leapYear_iff (year : Nat) : leapYear year = true ↔ IsLeap year := by
  have four := tmod_natCast year 4
  have hundred := tmod_natCast year 100
  have fourHundred := tmod_natCast year 400
  simp only [Nat.cast_ofNat] at four hundred fourHundred
  simp only [leapYear, four, hundred, fourHundred, IsLeap, Nat.dvd_iff_mod_eq_zero,
    Bool.and_eq_true, Bool.or_eq_true, beq_iff_eq, bne_iff_ne]
  omega

theorem yearSize_eq (year : Nat) : yearSize year = yearDays year := by
  simp only [yearSize, yearDays, leapYear_iff]

theorem monthSize_eq (year month : Nat) (inside : month < 12) :
    monthSize year month = some (monthDays year month) := by
  unfold monthSize
  cases leap : leapYear year with
  | true =>
    have isLeap := (leapYear_iff year).mp leap
    interval_cases month <;> simp [ytab, monthDays, isLeap]
  | false =>
    have notLeap : ¬ IsLeap year := by
      rw [← leapYear_iff, leap]
      exact Bool.false_ne_true
    interval_cases month <;> simp [ytab, monthDays, notLeap]

theorem years_eq {dayno elapsed yday : Nat}
    (lies : Lies (fun elapsed => yearDays (1970 + elapsed)) dayno elapsed yday) :
    years dayno epochYr = (yday, ((1970 + elapsed : Nat) : Int)) := by
  have turn : ∀ left i, i < elapsed → yearDays (1970 + i) ≤ left →
      years left ((1970 + i : Nat) : Int) =
        years (left - yearDays (1970 + i)) ((1970 + (i + 1) : Nat) : Int) := by
    intro left i _ enough
    rw [years, yearSize_eq, if_pos enough]
    rfl
  have walked := loop_eq (fun left i => years left ((1970 + i : Nat) : Int)) turn yday
  rw [lies.sum] at walked
  have stops : years yday ((1970 + elapsed : Nat) : Int) = (yday, ((1970 + elapsed : Nat) : Int)) := by
    rw [years, yearSize_eq, if_neg (Nat.not_le_of_lt lies.inside)]
  exact walked.trans stops

section

variable {year size left month : Nat} (entry : monthSize year month = some size)
include entry

theorem months_of_le
    (enough : size ≤ left) : months year left month = months year (left - size) (month + 1) := by
  rw [months]
  split
  next none => rw [entry] at none; cases none
  next found some =>
      rw [entry] at some
      cases some
      exact if_pos enough

theorem months_of_lt (few : left < size) : months year left month = some (left, month) := by
  rw [months]
  split
  next none => rw [entry] at none; cases none
  next found some =>
      rw [entry] at some
      cases some
      exact if_neg (Nat.not_le_of_lt few)

end

theorem months_eq {year yday month mday : Nat} (inside : month < 12)
    (lies : Lies (monthDays year) yday month mday) :
    months year yday 0 = some (mday, month) := by
  have turn : ∀ left k, k < month → monthDays year k ≤ left →
      months year left k = months year (left - monthDays year k) (k + 1) := by
    intro left k below enough
    exact months_of_le (monthSize_eq year k (Nat.lt_trans below inside)) enough
  have walked := loop_eq (months year) turn mday
  rw [lies.sum] at walked
  exact walked.trans (months_of_lt (monthSize_eq year month inside) lies.inside)

end AckFormal.Ansi.Time

namespace AckFormal.Ansi.Calendar.Moment

open Time

def tm (moment : Moment) : Tm where
  tmSec := moment.second
  tmMin := moment.minute
  tmHour := moment.hour
  tmMday := moment.day
  tmMon := moment.month
  tmYear := moment.year - year0
  tmWday := moment.weekday
  tmYday := moment.yearDay
  tmIsdst := 0

end AckFormal.Ansi.Calendar.Moment

namespace AckFormal.Ansi.Time

open Lib.Spans Calendar

/-- What `gmtime` fills in when its two walks have ended. -/
theorem gmtime_of_walks {timer year : Int} {yday mday mon : Nat}
    (walkedYears : years (ulong timer / secsDay) epochYr = (yday, year))
    (walkedMonths : months year yday 0 = some (mday, mon)) :
    gmtime timer = some {
      tmSec := (ulong timer % secsDay % 60 : Nat)
      tmMin := (ulong timer % secsDay % 3600 / 60 : Nat)
      tmHour := (ulong timer % secsDay / 3600 : Nat)
      tmMday := (mday + 1 : Nat)
      tmMon := mon
      tmYear := year - year0
      tmWday := ((ulong timer / secsDay + 4) % 7 : Nat)
      tmYday := yday
      tmIsdst := 0 } := by
  simp only [gmtime, walkedYears, walkedMonths, Option.bind_eq_bind, Option.bind_some]

/-- A number of seconds that an `unsigned long` holds is taken apart into its moment. -/
theorem gmtime_seconds (moment : Moment) (fits : moment.seconds < 2 ^ 32) :
    gmtime moment.seconds = some moment.tm := by
  have tim : ulong moment.seconds = moment.seconds := by
    unfold ulong
    omega
  have number : ulong moment.seconds / secsDay = moment.number := by
    rw [tim]
    exact moment.seconds_div
  have clock : ulong moment.seconds % secsDay = moment.clock := by
    rw [tim]
    exact moment.seconds_mod
  have minutes := moment.minute_lt
  have seconds := moment.second_lt
  have counted : moment.day - 1 + 1 = moment.day := Nat.sub_add_cancel moment.day_pos
  have hour : moment.clock / 3600 = moment.hour := by unfold Moment.clock; omega
  have minute : moment.clock % 3600 / 60 = moment.minute := by unfold Moment.clock; omega
  have second : moment.clock % 60 = moment.second := by unfold Moment.clock; omega
  have year : years (ulong moment.seconds / secsDay) epochYr =
      (moment.yearDay, (moment.year : Int)) :=
    number ▸ years_eq moment.year_lies
  have month : months moment.year moment.yearDay 0 = some (moment.day - 1, moment.month) :=
    months_eq moment.month_lt moment.day_lies
  rw [gmtime_of_walks year month, number, clock, counted, hour, minute, second]
  rfl

end AckFormal.Ansi.Time
