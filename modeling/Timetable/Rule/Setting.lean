import Timetable.Rule.Draft

/-!
# Settings

A draft can be put together by settings, one after the other, from a frequency alone.  A
setting replaces what an earlier one of its kind has set.  The interval and the count have
32 binary digits, whatever their values; the numbers of the lists are checked only when the
rule is built.
-/

namespace Timetable

open Civil

/-- A value that is to be set in a draft. -/
inductive Setting where
  | interval (n : UInt32)
  | count (n : UInt32)
  | deadline (t : DateTime)
  | weekStart (weekday : Weekday)
  | months (months : List Month)
  | yearDays (days : List Int)
  | monthDays (days : List Int)
  | weekdays (selectors : List WeekdaySelector)
  | hours (hours : List Nat)
  | minutes (minutes : List Nat)
  | seconds (seconds : List Nat)
  | setPositions (positions : List Int)
  deriving DecidableEq

namespace Draft

/-- Set a value. -/
def set (d : Draft) : Setting → Draft
  | .interval n => { d with interval := n.toNat }
  | .count n => { d with count := some n.toNat }
  | .deadline t => d.withDeadline t
  | .weekStart weekStart => { d with weekStart }
  | .months months => { d with months }
  | .yearDays yearDays => { d with yearDays }
  | .monthDays monthDays => { d with monthDays }
  | .weekdays weekdays => { d with weekdays }
  | .hours hours => { d with hours }
  | .minutes minutes => { d with minutes }
  | .seconds seconds => { d with seconds }
  | .setPositions setPositions => { d with setPositions }

/-- The draft with a frequency and the given settings. -/
def ofSettings (frequency : Frequency) (settings : List Setting) : Draft :=
  settings.foldl set (ofFrequency frequency)

end Draft
end Timetable
