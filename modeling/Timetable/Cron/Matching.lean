import Timetable.Civil.DateTime
import Timetable.Cron.Basic

/-!
# What a cron expression matches

A datetime matches an expression if its year is one that cron expressions reach and every
field accepts its component.  A day has to be accepted as a day of the month and as a day
of the week.  Fractions of a second do not count.
-/

namespace Timetable

open Civil

namespace Cron

/-- The first year that expressions match. -/
def firstYear : Nat := 1970

/-- The last year that expressions match. -/
def lastYear : Nat := 2099

/-- The weekday of a day of a month. -/
def weekdayIn (ym : YearMonth) (day : Nat) : Weekday :=
  Weekday.afterMonday ((ym.firstDay + day + 4) % 7).toNat

/-- Whether a day of a month falls on Monday to Friday. -/
def isWorkday (ym : YearMonth) (day : Nat) : Bool :=
  weekdayIn ym day ≠ .saturday && weekdayIn ym day ≠ .sunday

/-- The last day of a month that falls on Monday to Friday. -/
def lastWorkday? (ym : YearMonth) : Option Nat :=
  ((List.range ym.length).reverse.map (· + 1)).find? (isWorkday ym)

/-- The day from Monday to Friday that is nearest to a day of a month, in the same month. -/
def nearestWorkday? (ym : YearMonth) (day : Nat) : Option Nat :=
  if ym.length < day then
    none
  else
    match weekdayIn ym day with
    | .saturday => some (if day = 1 then day + 2 else day - 1)
    | .sunday => some (if day = ym.length then day - 2 else day + 1)
    | _ => some day

namespace Mark

/-- Whether a mark of the days of the month stands for a day of a month. -/
def marksMonthDay (m : Mark) (ym : YearMonth) (day : Nat) : Bool :=
  match m with
  | .last => day = ym.length
  | .lastMinus n => day + n = ym.length
  | .lastWorkday => lastWorkday? ym = some day
  | .nearestWorkday n => nearestWorkday? ym n = some day
  | .lastOn _ | .nth _ _ => false

/-- Whether a mark of the days of the week stands for a day of a month. -/
def marksWeekday (m : Mark) (ym : YearMonth) (day : Nat) : Bool :=
  match m with
  | .lastOn weekday => weekdayIn ym day = weekday && ym.length < day + 7
  | .nth weekday n => weekdayIn ym day = weekday && (day - 1) / 7 + 1 = n
  | _ => false

end Mark

namespace Field

/-- Whether a field for the days of the month accepts a day of a month. -/
def acceptsMonthDay (f : Field) (ym : YearMonth) (day : Nat) : Bool :=
  match f with
  | .any => true
  | .only values marks =>
      values.contains day || marks.any fun m => m.marksMonthDay ym day

/-- Whether a field for the days of the week accepts a day of a month. -/
def acceptsWeekday (f : Field) (ym : YearMonth) (day : Nat) : Bool :=
  match f with
  | .any => true
  | .only values marks =>
      values.contains (weekdayIn ym day).cronNumber ||
        marks.any fun m => m.marksWeekday ym day

end Field

/-- Whether both day fields accept a day of a month. -/
def acceptsDay (e : Cron) (ym : YearMonth) (day : Nat) : Bool :=
  e.daysOfMonth.acceptsMonthDay ym day && e.daysOfWeek.acceptsWeekday ym day

/-- Whether a datetime matches an expression. -/
def isMatch (e : Cron) (t : DateTime) : Bool :=
  (firstYear ≤ t.date.year && t.date.year ≤ lastYear) &&
    e.years.contains t.date.year.toNat &&
    e.months.contains t.date.month.number &&
    e.acceptsDay t.date.yearMonth t.date.day &&
    e.hours.contains t.time.hour &&
    e.minutes.contains t.time.minute &&
    e.seconds.contains t.time.second

end Cron
end Timetable
