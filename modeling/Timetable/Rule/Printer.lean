import Timetable.Civil.Stamp
import Timetable.Rule.Draft
import Timetable.Rule.Key
import Timetable.Text.Numeral

/-!
# Writing rules

The text of a rule has its properties in a fixed order.  What a reader would assume is left
out: the interval 1, a week that begins on Monday, an absent end and empty lists.
-/

namespace Timetable

open Civil
open Text (decimal signedDecimal)

/-- The ordinal, if there is one, and the two letters of the weekday. -/
def WeekdaySelector.chars (s : WeekdaySelector) : List Char :=
  (s.ordinal.map signedDecimal).getD [] ++ s.weekday.token.toList

namespace Draft

/-- The items of a property with several values, or its one value, in the order of the
text.  A property without items is left out. -/
def valueItems (d : Draft) : Key → List (List Char)
  | .frequency => [d.frequency.token.toList]
  | .interval => if d.interval = 1 then [] else [decimal d.interval]
  | .deadline => d.deadline.toList.map DateTime.stampChars
  | .count => d.count.toList.map decimal
  | .weekStart => if d.weekStart = .monday then [] else [d.weekStart.token.toList]
  | .months => d.months.map fun m => decimal m.number
  | .yearDays => d.yearDays.map signedDecimal
  | .monthDays => d.monthDays.map signedDecimal
  | .weekdays => d.weekdays.map WeekdaySelector.chars
  | .hours => d.hours.map decimal
  | .minutes => d.minutes.map decimal
  | .seconds => d.seconds.map decimal
  | .setPositions => d.setPositions.map signedDecimal

/-- The segments of the text, without the semicolons. -/
def segments (d : Draft) : List (List Char) :=
  Key.all.filterMap fun key =>
    match d.valueItems key with
    | [] => none
    | values => some (key.name.toList ++ '=' :: [','].intercalate values)

/-- The text that says what the draft holds. -/
def chars (d : Draft) : List Char :=
  [';'].intercalate d.segments

end Draft

namespace Rule

/-- The canonical text of a rule. -/
def text (r : Rule) : String :=
  String.ofList r.toDraft.chars

end Rule
end Timetable
