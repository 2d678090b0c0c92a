import AckFormal.Lib.Spans

/-!
# The Gregorian calendar

Dates from the first of January 1970 on, and the moments of a day, with the days and the
seconds that lie before them. Nothing here is taken from the library's time functions; it is
what they are measured by.
-/

namespace AckFormal.Ansi.Calendar

open Lib.Spans

/-- The years divisible by four, but for the centuries not divisible by four hundred. -/
def IsLeap (year : Nat) : Prop := 4 ∣ year ∧ (100 ∣ year → 400 ∣ year)

instance (year : Nat) : Decidable (IsLeap year) :=
  inferInstanceAs (Decidable (_ ∧ (_ → _)))

def yearDays (year : Nat) : Nat := if IsLeap year then 366 else 365

def monthDays (year month : Nat) : Nat :=
  match month with
  | 0 | 2 | 4 | 6 | 7 | 9 | 11 => 31
  | 3 | 5 | 8 | 10 => 30
  | 1 => if IsLeap year then 29 else 28
  | _ => 0

theorem yearDays_pos (year : Nat) : 0 < yearDays year := by
  unfold yearDays
  split <;> decide

theorem before_monthDays (year : Nat) : before (monthDays year) 12 = yearDays year := by
  simp only [before, monthDays, yearDays]
  split <;> rfl

/-- A second of a day from 1970 on: the full years since then, the month from zero on and
the day of it from one on, and the time of the day. -/
structure Moment where
  elapsed : Nat
  month : Nat
  day : Nat
  hour : Nat
  minute : Nat
  second : Nat
  month_lt : month < 12
  day_pos : 1 ≤ day
  day_le : day ≤ monthDays (1970 + elapsed) month
  hour_lt : hour < 24
  minute_lt : minute < 60
  second_lt : second < 60

namespace Moment

variable (moment : Moment)

def year : Nat := 1970 + moment.elapsed

def yearDay : Nat := before (monthDays moment.year) moment.month + (moment.day - 1)

def number : Nat := before (fun elapsed => yearDays (1970 + elapsed)) moment.elapsed + moment.yearDay

/-- The days since the last Sunday; the first of January 1970 was a Thursday. -/
def weekday : Nat := (moment.number + 4) % 7

def clock : Nat := (moment.hour * 60 + moment.minute) * 60 + moment.second

def seconds : Nat := moment.number * 86400 + moment.clock

theorem day_lies : Lies (monthDays moment.year) moment.yearDay moment.month (moment.day - 1) where
  sum := rfl
  inside := by
    have within := moment.day_le
    have counted := moment.day_pos
    unfold year
    omega

theorem yearDay_lt : moment.yearDay < yearDays moment.year := by
  have ends := moment.day_lies.lt_before
  have months := before_mono (monthDays moment.year) (Nat.succ_le_of_lt moment.month_lt)
  rw [before_monthDays] at months
  exact Nat.lt_of_lt_of_le ends months

theorem year_lies :
    Lies (fun elapsed => yearDays (1970 + elapsed)) moment.number moment.elapsed moment.yearDay :=
  ⟨rfl, moment.yearDay_lt⟩

theorem clock_lt : moment.clock < 86400 := by
  have hours := moment.hour_lt
  have minutes := moment.minute_lt
  have seconds := moment.second_lt
  unfold clock
  omega

theorem seconds_div : moment.seconds / 86400 = moment.number := by
  have within := moment.clock_lt
  unfold seconds
  omega

theorem seconds_mod : moment.seconds % 86400 = moment.clock := by
  have within := moment.clock_lt
  unfold seconds
  omega

end Moment

/-- Every number of seconds since the start of 1970 is the number of a moment. -/
theorem exists_moment (n : Nat) : ∃ moment : Moment, moment.seconds = n := by
  have covered : n / 86400 < before (fun elapsed => yearDays (1970 + elapsed)) (n / 86400 + 1) :=
    le_before _ (fun elapsed => yearDays_pos (1970 + elapsed)) (n / 86400 + 1)
  obtain ⟨elapsed, yearDay, -, years⟩ := exists_lies covered
  have within : yearDay < before (monthDays (1970 + elapsed)) 12 := by
    rw [before_monthDays]
    exact years.inside
  obtain ⟨month, day, below, months⟩ := exists_lies within
  have inside := months.inside
  refine ⟨⟨elapsed, month, day + 1, n % 86400 / 3600, n % 3600 / 60, n % 60, below, by omega,
    by omega, by omega, by omega, by omega⟩, ?_⟩
  have days : before (fun elapsed => yearDays (1970 + elapsed)) elapsed +
      (before (monthDays (1970 + elapsed)) month + day) = n / 86400 := by
    rw [months.sum, years.sum]
  simp only [Moment.seconds, Moment.number, Moment.yearDay, Moment.year, Moment.clock,
    Nat.add_sub_cancel, days]
  omega

end AckFormal.Ansi.Calendar
