import Timetable.Civil.DateTime
import Timetable.Text.Numeral
import Timetable.Text.Span

/-!
# Timestamp literals

A rule writes the end of its run as a compact timestamp such as `19971224T000000`.  The
reader also takes the form with hyphens and colons, a closing Z, and times that leave out
the seconds, the minutes or the whole time of day; what is left out is zero.

Digits of a time without colons are taken two bytes at a time.  A pair of bytes that does
not begin and end between two characters is passed over.
-/

namespace Timetable
namespace Civil
namespace DateTime

open Text (padded digits? divideAt? slice? byteLength)

/-- The year of a literal: four digits, or a minus and at least three. -/
def stampYear (year : Int) : List Char :=
  if year < 0 then '-' :: padded 3 year.natAbs else padded 4 year.natAbs

/-- The literal of a datetime, to the second. -/
def stampChars (t : DateTime) : List Char :=
  stampYear t.date.year ++ padded 2 t.date.month.number ++ padded 2 t.date.day ++
    'T' :: padded 2 t.time.hour ++ padded 2 t.time.minute ++ padded 2 t.time.second

/-- Read the date of a literal as year, month and day: eight digits, or four, two and two
digits with hyphens between them. -/
def readStampDate? : List Char → Option (Nat × Nat × Nat)
  | [y₁, y₂, y₃, y₄, m₁, m₂, d₁, d₂] =>
      return (← digits? [y₁, y₂, y₃, y₄], ← digits? [m₁, m₂], ← digits? [d₁, d₂])
  | [y₁, y₂, y₃, y₄, '-', m₁, m₂, '-', d₁, d₂] =>
      return (← digits? [y₁, y₂, y₃, y₄], ← digits? [m₁, m₂], ← digits? [d₁, d₂])
  | _ => none

/-- The pairs of bytes at even positions that begin and end between two characters. -/
def bytePairs (cs : List Char) : List (List Char) :=
  (List.range (byteLength cs / 2)).filterMap fun i => slice? (2 * i) (2 * i + 2) cs

/-- Read exactly two digits. -/
def readTwoDigits? (cs : List Char) : Option Nat :=
  if cs.length = 2 then digits? cs else none

/-- Read the time of a literal as hour, minute and second: one to three numbers of two
digits, all with colons between them or all without. -/
def readStampTime? (cs : List Char) : Option (Nat × Nat × Nat) := do
  let pieces ←
    if cs.contains ':' then
      some (cs.splitOn ':')
    else if byteLength cs % 2 = 0 then
      some (bytePairs cs)
    else
      none
  match ← pieces.mapM readTwoDigits? with
  | [hour] => some (hour, 0, 0)
  | [hour, minute] => some (hour, minute, 0)
  | [hour, minute, second] => some (hour, minute, second)
  | _ => none

/-- A text without one closing Z. -/
def dropZone (cs : List Char) : List Char :=
  match cs.getLast? with
  | some 'Z' | some 'z' => cs.dropLast
  | _ => cs

/-- Read a literal. -/
def ofStamp? (cs : List Char) : Option DateTime := do
  let body := dropZone cs
  let ((year, month, day), (hour, minute, second)) ←
    match divideAt? (fun c => c == 'T' || c == 't') body with
    | some (date, time) => do
        let date ← readStampDate? date
        let time ← readStampTime? time
        some (date, time)
    | none => (readStampDate? body).map fun date => (date, (0, 0, 0))
  ofReading? year month day hour minute second 0

end DateTime
end Civil
end Timetable
