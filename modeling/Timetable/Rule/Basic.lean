import Timetable.Civil.DateTime
import Timetable.Rule.Frequency

/-!
# Recurrence rules

A `Rule` says how often something happens: a frequency, an interval, an optional end, and
lists that select months, days and times.  An empty list selects nothing in particular; it
leaves the choice to the start from which the rule is followed.  Lists keep the order and
the repetitions with which they were given.

The type asks only that the interval is positive.  `Rule.Valid`, which rules made from
text or from a draft have, says that the listed values are in range and that the frequency
has a use for every list.
-/

namespace Timetable

open Civil

/-- A weekday, or the one that an ordinal picks out among the days of its name: the second
Monday, or with a negative ordinal the last but one. -/
structure WeekdaySelector where
  weekday : Weekday
  ordinal : Option Int
  deriving DecidableEq

/-- How a rule ends: after a number of occurrences, or with the last one that is not later
than a deadline. -/
inductive Ending where
  | count (n : Nat)
  | deadline (t : DateTime)
  deriving DecidableEq

/-- A recurrence rule. -/
structure Rule where
  frequency : Frequency
  interval : Nat
  ending : Option Ending
  weekStart : Weekday
  months : List Month
  yearDays : List Int
  monthDays : List Int
  weekdays : List WeekdaySelector
  hours : List Nat
  minutes : List Nat
  seconds : List Nat
  setPositions : List Int
  interval_pos : 0 < interval
  deriving DecidableEq

namespace Rule

/-- The number of occurrences after which the rule ends. -/
def count? (r : Rule) : Option Nat :=
  match r.ending with
  | some (.count n) => some n
  | _ => none

/-- The datetime after which the rule has no occurrences. -/
def deadline? (r : Rule) : Option DateTime :=
  match r.ending with
  | some (.deadline t) => some t
  | _ => none

/-- Whether no list of the rule selects a time of day. -/
def leavesTimeOpen (r : Rule) : Bool :=
  r.hours.isEmpty && r.minutes.isEmpty && r.seconds.isEmpty

end Rule
end Timetable
