import Timetable.Cron.Kind

/-!
# Faults of a cron expression

Why a text is not a cron expression.  `Fault.message` is the wording.
-/

namespace Timetable
namespace Cron

/-- Why a text is not a cron expression. -/
inductive Fault where
  | unknownAlias (name : String)
  | wrongFieldCount (n : Nat)
  | questionMark (kind : Kind)
  | emptyItem (field : String)
  | descendingRange (item : String)
  | zeroStep
  | invalidStep (text : String)
  | invalidValue (kind : Kind) (text : String)
  | outOfRange (kind : Kind) (value : Nat)
  | invalidLastOffset (text : String)
  | invalidOccurrence (text : String)
  /-- A last day of the week without the weekday. -/
  | lastWithoutWeekday
  deriving DecidableEq

namespace Fault

/-- What is wrong, in one line. -/
def message : Fault → String
  | .unknownAlias name => "unknown cron alias '" ++ name ++ "'"
  | .wrongFieldCount n => "expected 5, 6 or 7 fields, got " ++ toString n
  | .questionMark kind => "'?' is not allowed in the " ++ kind.name ++ " field"
  | .emptyItem field => "empty list item in '" ++ field ++ "'"
  | .descendingRange item => "range must ascend: " ++ item
  | .zeroStep => "step must be at least 1"
  | .invalidStep text => "invalid step '" ++ text ++ "'"
  | .invalidValue kind text => "invalid " ++ kind.name ++ " value '" ++ text ++ "'"
  | .outOfRange kind value =>
      kind.name ++ " value out of range: " ++ toString value ++ " (expected " ++
        toString kind.least ++ "-" ++ toString kind.greatestWritten ++ ")"
  | .invalidLastOffset text =>
      "invalid last-day offset '" ++ text ++ "' (expected 0-30)"
  | .invalidOccurrence text =>
      "invalid weekday occurrence '" ++ text ++ "' (expected 1-5)"
  | .lastWithoutWeekday => "'L' alone is not supported in day-of-week"

end Fault
end Cron
end Timetable
