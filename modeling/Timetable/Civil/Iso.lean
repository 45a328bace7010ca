import Timetable.Civil.DateTime
import Timetable.Text.Numeral

/-!
# The written form of a datetime

A datetime is written as year, month and day with hyphens, the letter T, and hour, minute
and second with colons.  A year from 0 to 9999 has four digits, a year before 0 a minus and
six digits.  Nanoseconds follow a point as a fraction without closing zeros, and only when
they are not zero.
-/

namespace Timetable
namespace Civil
namespace DateTime

open Text (padded leadingDigits? digits?)

/-- The year in four digits, or in six after a minus. -/
def isoYear (year : Int) : List Char :=
  if year < 0 then '-' :: padded 6 year.natAbs else padded 4 year.natAbs

/-- The fraction of a second: a point and up to nine digits, or nothing for zero. -/
def isoFraction (nanosecond : Nat) : List Char :=
  if nanosecond = 0 then
    []
  else
    '.' :: ((padded 9 nanosecond).reverse.dropWhile (· == '0')).reverse

/-- The written form as a list of characters. -/
def isoChars (t : DateTime) : List Char :=
  isoYear t.date.year ++ '-' :: padded 2 t.date.month.number ++ '-' :: padded 2 t.date.day ++
    'T' :: padded 2 t.time.hour ++ ':' :: padded 2 t.time.minute ++
    ':' :: padded 2 t.time.second ++ isoFraction t.time.nanosecond

/-- The written form. -/
def iso (t : DateTime) : String :=
  String.ofList t.isoChars

/-- Read a year of four digits, or a minus and a year of six digits other than zero. -/
def readIsoYear? : List Char → Option (Int × List Char)
  | '-' :: cs => do
      let (year, rest) ← leadingDigits? 6 cs
      if year = 0 then none else some (-(year : Int), rest)
  | cs => (leadingDigits? 4 cs).map fun (year, rest) => ((year : Int), rest)

/-- Read the fraction that ends a text: nothing, or a point and one to nine digits. -/
def readIsoFraction? : List Char → Option Nat
  | [] => some 0
  | '.' :: cs =>
      if cs.length ≤ 9 then (digits? cs).map (· * Nat.pow 10 (9 - cs.length)) else none
  | _ => none

/-- Read the written form. -/
def ofIso? (cs : List Char) : Option DateTime := do
  let (year, cs) ← readIsoYear? cs
  let '-' :: cs := cs | none
  let (month, cs) ← leadingDigits? 2 cs
  let '-' :: cs := cs | none
  let (day, cs) ← leadingDigits? 2 cs
  let 'T' :: cs := cs | none
  let (hour, cs) ← leadingDigits? 2 cs
  let ':' :: cs := cs | none
  let (minute, cs) ← leadingDigits? 2 cs
  let ':' :: cs := cs | none
  let (second, cs) ← leadingDigits? 2 cs
  let nanosecond ← readIsoFraction? cs
  ofReading? year month day hour minute second nanosecond

end DateTime
end Civil
end Timetable
