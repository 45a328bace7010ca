import Timetable.Cron.Basic
import Timetable.Text.Numeral

/-!
# Writing cron expressions

A field that accepts everything is a star.  Values that step through the whole range of
their kind are a star with a step; otherwise runs of three or more consecutive values are
written as ranges and the rest one by one.  Marks come last.
-/

namespace Timetable
namespace Cron

open Text (decimal)

/-- The text of a mark. -/
def Mark.chars : Mark → List Char
  | .last => ['L']
  | .lastMinus n => 'L' :: '-' :: decimal n
  | .lastWorkday => ['L', 'W']
  | .nearestWorkday day => decimal day ++ ['W']
  | .lastOn weekday => decimal weekday.cronNumber ++ ['L']
  | .nth weekday n => decimal weekday.cronNumber ++ '#' :: decimal n

/-- The first and last values of the runs of consecutive values in a list. -/
def runs : List Nat → List (Nat × Nat)
  | [] => []
  | v :: vs =>
      match runs vs with
      | (first, last) :: rest =>
          if v + 1 = first then (v, last) :: rest else (v, v) :: (first, last) :: rest
      | [] => [(v, v)]

/-- A run as a range if it has three values or more, otherwise its values one by one. -/
def runItems (run : Nat × Nat) : List (List Char) :=
  if run.1 + 2 ≤ run.2 then
    [decimal run.1 ++ '-' :: decimal run.2]
  else
    (List.range (run.2 + 1 - run.1)).map fun i => decimal (run.1 + i)

/-- The step of two or more with which values go through the whole range of a kind. -/
def fullStep? (k : Kind) (values : List Nat) : Option Nat :=
  match values with
  | first :: second :: _ =>
      let step := second - first
      if first = k.least ∧ 2 ≤ step ∧
          values = k.values.filter (fun v => (v - k.least) % step = 0) then
        some step
      else
        none
  | _ => none

/-- The items for the values of a field. -/
def valueItems (k : Kind) (values : List Nat) : List (List Char) :=
  match fullStep? k values with
  | some step => ['*' :: '/' :: decimal step]
  | none => (runs values).flatMap runItems

/-- The text of a field. -/
def Field.chars (k : Kind) : Field → List Char
  | .any => ['*']
  | .only values marks => [','].intercalate (valueItems k values ++ marks.map Mark.chars)

/-- The fields that the text of an expression shows. -/
def shownFields (e : Cron) : List (List Char) :=
  (if e.showsSeconds then [e.seconds.chars .second] else []) ++
    [e.minutes.chars .minute, e.hours.chars .hour, e.daysOfMonth.chars .dayOfMonth,
     e.months.chars .month, e.daysOfWeek.chars .dayOfWeek] ++
    if e.showsYears then [e.years.chars .year] else []

/-- The canonical text of an expression. -/
def text (e : Cron) : String :=
  String.ofList ([' '].intercalate e.shownFields)

end Cron
end Timetable
