import Timetable.Cron.Item
import Timetable.Diagnostic

/-!
# Reading cron expressions

A cron expression is five to seven fields with blanks between them, or an alias such as
`@daily` that stands for such fields.  Five fields leave the seconds at 0 and the years
open, six begin with the seconds, and seven also end with the years.

The first field that cannot be read is reported with its byte range; a wrong number of
fields or an unknown alias is reported for the whole text.
-/

namespace Timetable
namespace Cron

open Text (items trim lower words byteLength)

/-- Read the items of a field one after the other, refusing an empty one. -/
def readItems (k : Kind) (field : List Char) : Except Fault (List Item) :=
  (items field).mapM fun item =>
    if item.isEmpty then .error (.emptyItem (String.ofList field)) else Item.read k item

/-- The marks among items, without repetitions. -/
def marksOf (read : List Item) : List Mark :=
  (read.filterMap fun
    | .mark m => some m
    | .progression _ => none).eraseDups

/-- The values of a kind that one of the items has, in ascending order. -/
def valuesOf (k : Kind) (read : List Item) : List Nat :=
  k.values.filter fun v => read.any fun
    | .mark _ => false
    | .progression p => (k.spellings v).any p.contains

namespace Field

/-- The field with the given values and marks.  A field that has all values and no marks
accepts everything. -/
def ofValues (k : Kind) (values : List Nat) (marks : List Mark) : Field :=
  if values = k.values ∧ marks = [] then .any else .only values marks

/-- Read a field. -/
def read (k : Kind) (cs : List Char) : Except Fault Field :=
  if cs = ['*'] then
    .ok .any
  else if cs = ['?'] then
    if k.allowsQuestionMark then .ok .any else .error (.questionMark k)
  else
    (readItems k cs).map fun read => ofValues k (valuesOf k read) (marksOf read)

end Field

/-- The fields for which an alias stands. -/
def aliases : List (String × String) :=
  [("@yearly", "0 0 1 1 *"), ("@annually", "0 0 1 1 *"), ("@monthly", "0 0 1 * *"),
   ("@weekly", "0 0 * * 0"), ("@daily", "0 0 * * *"), ("@midnight", "0 0 * * *"),
   ("@hourly", "0 * * * *")]

/-- Read one field of a text, reporting a fault at the field's byte range. -/
def readPiece (k : Kind) (p : Piece) : Except (Located Fault) Field :=
  (Field.read k p.chars).mapError fun fault => ⟨fault, p.span⟩

/-- Read a field that the text may leave out. -/
def readOptional (k : Kind) (absent : Field) (p : Option Piece) :
    Except (Located Fault) Field :=
  match p with
  | none => .ok absent
  | some p => readPiece k p

/-- Read the fields of an expression from left to right.  Without a field for them the
seconds are 0 and the years are open. -/
def ofPieces (seconds : Option Piece)
    (minutes hours daysOfMonth months daysOfWeek : Piece) (years : Option Piece) :
    Except (Located Fault) Cron :=
  return {
    seconds := ← readOptional .second (.only [0] []) seconds
    minutes := ← readPiece .minute minutes
    hours := ← readPiece .hour hours
    daysOfMonth := ← readPiece .dayOfMonth daysOfMonth
    months := ← readPiece .month months
    daysOfWeek := ← readPiece .dayOfWeek daysOfWeek
    years := ← readOptional .year .any years
    showsSeconds := seconds.isSome
    showsYears := years.isSome }

/-- Read the five to seven fields of a text. -/
def readFields (cs : List Char) : Except (Located Fault) Cron :=
  match words cs with
  | [minutes, hours, daysOfMonth, months, daysOfWeek] =>
      ofPieces none minutes hours daysOfMonth months daysOfWeek none
  | [seconds, minutes, hours, daysOfMonth, months, daysOfWeek] =>
      ofPieces (some seconds) minutes hours daysOfMonth months daysOfWeek none
  | [seconds, minutes, hours, daysOfMonth, months, daysOfWeek, years] =>
      ofPieces (some seconds) minutes hours daysOfMonth months daysOfWeek (some years)
  | ps => .error ⟨.wrongFieldCount ps.length, ⟨0, byteLength cs⟩⟩

/-- Read a cron expression from a text that is not blank. -/
def read (cs : List Char) : Except (Located Fault) Cron :=
  let name := trim cs
  if name.head? = some '@' then
    match aliases.find? fun entry => entry.1.toList == lower name with
    | some entry => readFields entry.2.toList
    | none => .error ⟨.unknownAlias (String.ofList name), ⟨0, byteLength cs⟩⟩
  else
    readFields cs

/-- Read a cron expression. -/
def parse (text : String) : Except Diagnostic Cron :=
  let cs := text.toList
  if (trim cs).isEmpty then
    .error (.argument "cron expression is empty")
  else
    (read cs).mapError fun fault => .cron fault.value.message ⟨fault.span, text⟩

end Cron
end Timetable
