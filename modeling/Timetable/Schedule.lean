import Timetable.Feed
import Timetable.Json.Schedule

/-!
# Schedules

A schedule is a rule or a cron expression, for those who care only that it can be read,
written and followed.
-/

namespace Timetable

open Civil

/-- A rule or a cron expression. -/
inductive Schedule where
  | rule (r : Rule)
  | cron (e : Cron)
  deriving DecidableEq

namespace Schedule

/-- Read a cron expression or a rule. -/
def parse (isCron : Bool) (text : String) : Except Diagnostic Schedule :=
  if isCron then (Cron.parse text).map .cron else (Rule.parse text).map .rule

/-- The canonical text. -/
def text : Schedule → String
  | .rule r => r.text
  | .cron e => e.text

/-- The JSON object with all parts. -/
def toJson : Schedule → Json
  | .rule r => r.toJson
  | .cron e => e.toJson

/-- The datetimes of a schedule at or after a start. -/
def feed (s : Schedule) (start : DateTime) : Feed :=
  match s with
  | .rule r => .occurrences (r.occurrences start)
  | .cron e => .matched (e.occurrences start Cron.defaultSteps)

end Schedule
end Timetable
