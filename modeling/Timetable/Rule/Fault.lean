import Timetable.Rule.Frequency

/-!
# Faults of a rule

Why a text is not a rule or a draft cannot become one, with the value ranges of the
numeric lists.  `Fault.message` is the wording.
-/

namespace Timetable

/-- The values that a list of a rule may hold. -/
structure ValueRange where
  name : String
  least : Int
  greatest : Int
  allowsZero : Bool
  deriving DecidableEq

namespace ValueRange

/-- The months by their numbers. -/
def month : ValueRange := ⟨"BYMONTH", 1, 12, false⟩

/-- The days of a year, counted from its end if negative. -/
def yearDay : ValueRange := ⟨"BYYEARDAY", -366, 366, false⟩

/-- The days of a month, counted from its end if negative. -/
def monthDay : ValueRange := ⟨"BYMONTHDAY", -31, 31, false⟩

/-- The hours of a day. -/
def hour : ValueRange := ⟨"BYHOUR", 0, 23, true⟩

/-- The minutes of an hour. -/
def minute : ValueRange := ⟨"BYMINUTE", 0, 59, true⟩

/-- Seconds go up to 60, the number of a leap second. -/
def second : ValueRange := ⟨"BYSECOND", 0, 60, true⟩

/-- The places among the datetimes of a period, counted from its end if negative. -/
def setPosition : ValueRange := ⟨"BYSETPOS", -366, 366, false⟩

/-- The places of a weekday in a month or year, counted from its end if negative. -/
def ordinal : ValueRange := ⟨"BYDAY ordinal", -53, 53, false⟩

/-- Whether a value is in the range. -/
def contains (range : ValueRange) (n : Int) : Bool :=
  range.least ≤ n && n ≤ range.greatest && (range.allowsZero || n ≠ 0)

/-- The range in words. -/
def text (range : ValueRange) : String :=
  if range.allowsZero || 0 < range.least then
    toString range.least ++ ".." ++ toString range.greatest
  else
    "±1.." ++ toString range.greatest

end ValueRange

/-- Why a text is not a rule or a draft cannot become one. -/
inductive Rule.Fault where
  /-- A segment without an equals sign. -/
  | notProperty (segment : String)
  /-- A segment with nothing before the equals sign. -/
  | missingName
  /-- A segment with nothing after the equals sign. -/
  | missingValue (name : String)
  | missingFrequency
  | unknownFrequency (value : String)
  | duplicateProperty (name : String)
  | unknownProperty (name : String)
  /-- A value that is not a number, or not one of the property's size or form. -/
  | invalidValue (name value : String)
  | invalidTimestamp (value : String)
  | invalidWeekday (name value : String)
  | zeroInterval
  | outOfRange (range : ValueRange) (value : Int)
  /-- A list that the rule's frequency has no use for. -/
  | notAllowed (name : String) (frequency : Frequency)
  | ordinalNotAllowed (frequency : Frequency)
  | twoEndings
  deriving DecidableEq

namespace Rule.Fault

/-- What is wrong, in one line. -/
def message : Fault → String
  | .notProperty segment => "expected KEY=VALUE, got '" ++ segment ++ "'"
  | .missingName => "missing property name before '='"
  | .missingValue name => "missing value for " ++ name
  | .missingFrequency => "missing FREQ"
  | .unknownFrequency value => "unknown FREQ '" ++ value ++ "'"
  | .duplicateProperty name => "duplicate property '" ++ name ++ "'"
  | .unknownProperty name => "unknown property '" ++ name ++ "'"
  | .invalidValue name value => "invalid " ++ name ++ " value '" ++ value ++ "'"
  | .invalidTimestamp value => "invalid UNTIL timestamp '" ++ value ++ "'"
  | .invalidWeekday name value =>
      "invalid weekday '" ++ value ++ "' in " ++ name ++ " (expected MO..SU)"
  | .zeroInterval => "INTERVAL must be at least 1"
  | .outOfRange range value =>
      range.name ++ " value out of range: " ++ toString value ++
        " (expected " ++ range.text ++ ")"
  | .notAllowed name frequency => name ++ " is not allowed with FREQ=" ++ frequency.token
  | .ordinalNotAllowed frequency =>
      "BYDAY ordinals are not allowed with FREQ=" ++ frequency.token
  | .twoEndings => "UNTIL and COUNT are mutually exclusive"

end Rule.Fault
end Timetable
