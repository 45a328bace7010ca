import Timetable.Civil.Weekday
import Timetable.Cron.Kind

/-!
# Cron expressions

A cron expression has a field for the seconds, minutes, hours, days of the month, months,
days of the week and years.  A field accepts everything, or it lists values and marks.  A
mark stands for a day that depends on the month, such as its last Friday.

The values of a field ascend; the marks keep the order in which they were written.
-/

namespace Timetable

open Civil

namespace Cron

/-- A day that depends on the month. -/
inductive Mark where
  /-- The last day of the month. -/
  | last
  /-- The day a number of days before the last one. -/
  | lastMinus (n : Nat)
  /-- The last day from Monday to Friday. -/
  | lastWorkday
  /-- The day from Monday to Friday that is nearest to a day of the month. -/
  | nearestWorkday (day : Nat)
  /-- The last day of the month on a weekday. -/
  | lastOn (weekday : Weekday)
  /-- The `n`-th day of the month on a weekday. -/
  | nth (weekday : Weekday) (n : Nat)
  deriving DecidableEq

/-- A field: everything, or the listed values and marks. -/
inductive Field where
  | any
  | only (values : List Nat) (marks : List Mark)
  deriving DecidableEq

namespace Field

/-- Whether a field accepts a value, its marks left aside. -/
def contains (f : Field) (v : Nat) : Bool :=
  match f with
  | .any => true
  | .only values _ => values.contains v

/-- The least value from `v` to `greatest` that a field accepts. -/
def nextFrom? (f : Field) (v greatest : Nat) : Option Nat :=
  match f with
  | .any => if v ≤ greatest then some v else none
  | .only values _ => values.find? fun n => v ≤ n && n ≤ greatest

end Field

end Cron

/-- A cron expression.  The last two fields tell whether its text shows the seconds and the
years. -/
structure Cron where
  seconds : Cron.Field
  minutes : Cron.Field
  hours : Cron.Field
  daysOfMonth : Cron.Field
  months : Cron.Field
  daysOfWeek : Cron.Field
  years : Cron.Field
  showsSeconds : Bool
  showsYears : Bool
  deriving DecidableEq

end Timetable
