/-!
# Names of properties

The thirteen properties that a rule's text may have.
-/

namespace Timetable

/-- The names of the properties that a rule's text may have. -/
inductive Key where
  | frequency
  | interval
  | deadline
  | count
  | weekStart
  | months
  | yearDays
  | monthDays
  | weekdays
  | hours
  | minutes
  | seconds
  | setPositions
  deriving DecidableEq

namespace Key

/-- All properties, in the order in which a rule's own text has them. -/
def all : List Key :=
  [.frequency, .interval, .deadline, .count, .weekStart, .months, .yearDays, .monthDays,
   .weekdays, .hours, .minutes, .seconds, .setPositions]

/-- The name of a property in the text of a rule. -/
def name : Key → String
  | .frequency => "FREQ"
  | .interval => "INTERVAL"
  | .deadline => "UNTIL"
  | .count => "COUNT"
  | .weekStart => "WKST"
  | .months => "BYMONTH"
  | .yearDays => "BYYEARDAY"
  | .monthDays => "BYMONTHDAY"
  | .weekdays => "BYDAY"
  | .hours => "BYHOUR"
  | .minutes => "BYMINUTE"
  | .seconds => "BYSECOND"
  | .setPositions => "BYSETPOS"

/-- The property with a name in capitals. -/
def ofName? (cs : List Char) : Option Key :=
  all.find? fun k => k.name.toList == cs

theorem mem_all (k : Key) : k ∈ all := by
  cases k <;> simp [all]

@[simp] theorem ofName?_name (k : Key) : ofName? k.name.toList = some k := by
  cases k <;> rfl

end Key
end Timetable
