import Timetable.Civil.Iso
import Timetable.Json.Basic
import Timetable.Rule.Parser
import Timetable.Rule.Printer
import Timetable.Cron.Parser
import Timetable.Cron.Printer

/-!
# Rules and cron expressions as JSON

A rule or a cron expression is written as an object with all its parts and its text, and is
read from a JSON string that holds its text.
-/

namespace Timetable

open Civil

namespace Json

/-- A list of numbers. -/
def integers (ns : List Int) : Json :=
  .array (ns.map .integer)

/-- A natural number. -/
def natural (n : Nat) : Json :=
  .integer n

/-- A datetime in its written form. -/
def datetime (t : DateTime) : Json :=
  .string t.iso

/-- The text that a JSON string holds. -/
def readText (v : Json) : Except String String :=
  match v.text? with
  | some s => .ok s
  | none => .error ("invalid type: " ++ v.description ++ ", expected a string")

end Json

/-- The object for a weekday and its ordinal. -/
def WeekdaySelector.toJson (s : WeekdaySelector) : Json :=
  .object [("weekday", .string s.weekday.name),
    ("ordinal", (s.ordinal.map Json.integer).getD .null)]

/-- The object for the end of a rule. -/
def Ending.toJson : Ending → Json
  | .count n => .object [("count", .natural n)]
  | .deadline t => .object [("until", .datetime t)]

namespace Rule

/-- The object for a rule. -/
def toJson (r : Rule) : Json :=
  .object [
    ("frequency", .string r.frequency.name),
    ("interval", .natural r.interval),
    ("termination", (r.ending.map Ending.toJson).getD .null),
    ("week_start", .string r.weekStart.name),
    ("by_month", .array (r.months.map fun m => .string m.name)),
    ("by_year_day", .integers r.yearDays),
    ("by_month_day", .integers r.monthDays),
    ("by_day", .array (r.weekdays.map WeekdaySelector.toJson)),
    ("by_hour", .array (r.hours.map .natural)),
    ("by_minute", .array (r.minutes.map .natural)),
    ("by_second", .array (r.seconds.map .natural)),
    ("by_set_pos", .integers r.setPositions),
    ("text", .string r.text)]

/-- Read a rule from a JSON value, or say why it is none. -/
def ofJson (v : Json) : Except String Rule := do
  (parse (← v.readText)).mapError Diagnostic.message

end Rule

namespace Cron

/-- A mark by itself, or the object that holds its weekday or numbers. -/
def Mark.toJson : Mark → Json
  | .last => .string "last"
  | .lastMinus n => .object [("last_minus", .natural n)]
  | .lastWorkday => .string "last_weekday"
  | .nearestWorkday day => .object [("nearest_weekday", .natural day)]
  | .lastOn weekday => .object [("last_of_weekday", .string weekday.name)]
  | .nth weekday n => .object [("nth_of_weekday", .array [.string weekday.name, .natural n])]

/-- A field's values and marks, or the word for all of them. -/
def Field.toJson : Field → Json
  | .any => .string "all"
  | .only values marks =>
      .object [("values", .array
        (values.map (fun n => .object [("value", .natural n)]) ++ marks.map Mark.toJson))]

/-- The object for a cron expression. -/
def toJson (e : Cron) : Json :=
  .object [
    ("seconds", e.seconds.toJson),
    ("minutes", e.minutes.toJson),
    ("hours", e.hours.toJson),
    ("days_of_month", e.daysOfMonth.toJson),
    ("months", e.months.toJson),
    ("days_of_week", e.daysOfWeek.toJson),
    ("years", e.years.toJson),
    ("has_seconds", .bool e.showsSeconds),
    ("has_year", .bool e.showsYears),
    ("text", .string e.text)]

/-- Read a cron expression from a JSON value, or say why it is none. -/
def ofJson (v : Json) : Except String Cron := do
  (parse (← v.readText)).mapError Diagnostic.message

end Cron
end Timetable
