import Timetable.Civil.Month
import Timetable.Cron.Basic
import Timetable.Cron.Fault
import Timetable.Text.Letters
import Timetable.Text.Numeral
import Timetable.Text.Span

/-!
# Items of a cron field

The text of a field is a list of items with commas between them.  An item is a mark or a
`Progression`: every so many values from a first one to a last one.  A single value and a
range are progressions by steps of one.  Letters count in either case.
-/

namespace Timetable
namespace Cron

open Civil
open Text (unsigned? divideAt? upper)

/-- The values from `first` to `last` by steps. -/
structure Progression where
  first : Nat
  last : Nat
  step : Nat
  deriving DecidableEq

/-- Whether a progression has a value. -/
def Progression.contains (p : Progression) (v : Nat) : Bool :=
  p.first ≤ v && v ≤ p.last && (v - p.first) % p.step = 0

/-- What an item of a field stands for. -/
inductive Item where
  | mark (m : Mark)
  | progression (p : Progression)
  deriving DecidableEq

namespace Kind

/-- Read a value by its name: a month or a weekday in its own field. -/
def readName? (k : Kind) (cs : List Char) : Option Nat :=
  match k with
  | .month => (Month.ofAbbreviation? cs).map Month.number
  | .dayOfWeek => (Weekday.ofAbbreviation? cs).map Weekday.cronNumber
  | _ => none

/-- Read a value as it is written, by name or by number. -/
def readValue (k : Kind) (cs : List Char) : Except Fault Nat :=
  match k.readName? cs with
  | some v => .ok v
  | none =>
      match unsigned? 16 cs with
      | none => .error (.invalidValue k (String.ofList cs))
      | some v =>
          if k.least ≤ v ∧ v ≤ k.greatestWritten then .ok v else .error (.outOfRange k v)

end Kind

/-- Read a step. -/
def readStep (cs : List Char) : Except Fault Nat :=
  match unsigned? 16 cs with
  | none => .error (.invalidStep (String.ofList cs))
  | some 0 => .error .zeroStep
  | some n => .ok n

/-- Read a weekday by name or by number. -/
def readWeekday (cs : List Char) : Except Fault Weekday := do
  let v ← Kind.dayOfWeek.readValue cs
  match Weekday.ofCronNumber? v with
  | some d => return d
  | none => throw (.invalidValue .dayOfWeek (String.ofList cs))

/-- A text without its last character, if that is `c`. -/
def dropLast? (c : Char) (cs : List Char) : Option (List Char) :=
  if cs.getLast? = some c then some cs.dropLast else none

/-- Read a mark of the days of the month, in capitals; no result if the text is none. -/
def readMonthDayMark (cs : List Char) : Except Fault (Option Mark) :=
  match cs with
  | ['L'] => .ok (some .last)
  | ['L', 'W'] => .ok (some .lastWorkday)
  | 'L' :: '-' :: offset =>
      match unsigned? 8 offset with
      | some 0 => .ok (some .last)
      | some n =>
          if n ≤ 30 then
            .ok (some (.lastMinus n))
          else
            .error (.invalidLastOffset (String.ofList offset))
      | none => .error (.invalidLastOffset (String.ofList offset))
  | _ =>
      match dropLast? 'W' cs with
      | some day => (Kind.dayOfMonth.readValue day).map fun n => some (.nearestWorkday n)
      | none => .ok none

/-- Read a mark of the days of the week, in capitals; no result if the text is none. -/
def readWeekdayMark (cs : List Char) : Except Fault (Option Mark) :=
  match divideAt? (· == '#') cs with
  | some (day, occurrence) => do
      let weekday ← readWeekday day
      match unsigned? 8 occurrence with
      | some n =>
          if 1 ≤ n ∧ n ≤ 5 then
            return some (.nth weekday n)
          else
            throw (.invalidOccurrence (String.ofList occurrence))
      | none => throw (.invalidOccurrence (String.ofList occurrence))
  | none =>
      if cs = ['L'] then
        .error .lastWithoutWeekday
      else
        match dropLast? 'L' cs with
        | some day => (readWeekday day).map fun weekday => some (.lastOn weekday)
        | none => .ok none

/-- Read a mark of a field, in capitals; no result if the text is none. -/
def readMark (k : Kind) (cs : List Char) : Except Fault (Option Mark) :=
  match k with
  | .dayOfMonth => readMonthDayMark cs
  | .dayOfWeek => readWeekdayMark cs
  | _ => .ok none

/-- Read a progression in capitals: a star, a range or a value, and a step after a slash.
A single value with a step runs to the greatest value.  The item as it was written is for
the message only. -/
def readProgression (k : Kind) (item cs : List Char) : Except Fault Progression := do
  let (range, step) ←
    match divideAt? (· == '/') cs with
    | some (range, step) => (readStep step).map fun n => (range, some n)
    | none => .ok (cs, none)
  if range = ['*'] then
    return ⟨k.least, k.greatest, step.getD 1⟩
  match divideAt? (· == '-') range with
  | some (first, last) =>
      let first ← k.readValue first
      let last ← k.readValue last
      if last < first then
        throw (.descendingRange (String.ofList item))
      return ⟨first, last, step.getD 1⟩
  | none =>
      let value ← k.readValue range
      match step with
      | some n => return ⟨value, max k.greatest value, n⟩
      | none => return ⟨value, value, 1⟩

/-- Read an item of a field. -/
def Item.read (k : Kind) (item : List Char) : Except Fault Item := do
  let cs := upper item
  match ← readMark k cs with
  | some m => return .mark m
  | none => return .progression (← readProgression k item cs)

end Cron
end Timetable
