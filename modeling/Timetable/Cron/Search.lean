import Timetable.Cron.Matching

/-!
# Searching for the next match

A `Cursor` is a position in the calendar from which a search goes on.  One step of the
search looks at the fields from the years down to the seconds.  The first component that its
field refuses moves the cursor to the next accepted one, or past the end of the next coarser
unit, and begins the finer ones anew.  If no component is refused, the cursor is at a match.

The day of a cursor may be one too great for its month; the next step then goes on to the
following month.
-/

namespace Timetable

open Civil

namespace Cron

/-- A position in the calendar, to the second. -/
structure Cursor where
  year : Nat
  month : Nat
  day : Nat
  hour : Nat
  minute : Nat
  second : Nat
  deriving DecidableEq

namespace Cursor

/-- The beginning of a year. -/
def atYear (year : Nat) : Cursor :=
  ⟨year, 1, 1, 0, 0, 0⟩

/-- The beginning of a month of the same year. -/
def atMonth (c : Cursor) (month : Nat) : Cursor :=
  ⟨c.year, month, 1, 0, 0, 0⟩

/-- The beginning of an hour of the same day. -/
def atHour (c : Cursor) (hour : Nat) : Cursor :=
  { c with hour, minute := 0, second := 0 }

/-- The beginning of a minute of the same hour. -/
def atMinute (c : Cursor) (minute : Nat) : Cursor :=
  { c with minute, second := 0 }

/-- A second of the same minute. -/
def atSecond (c : Cursor) (second : Nat) : Cursor :=
  { c with second }

/-- The beginning of the next month. -/
def nextMonth (c : Cursor) : Cursor :=
  if 12 ≤ c.month then atYear (c.year + 1) else c.atMonth (c.month + 1)

/-- The beginning of the next day of the same month, whether the month has it or not. -/
def nextDay (c : Cursor) : Cursor :=
  ⟨c.year, c.month, c.day + 1, 0, 0, 0⟩

/-- The beginning of the next hour. -/
def nextHour (c : Cursor) : Cursor :=
  if 23 ≤ c.hour then c.nextDay else c.atHour (c.hour + 1)

/-- The beginning of the next minute. -/
def nextMinute (c : Cursor) : Cursor :=
  if 59 ≤ c.minute then c.nextHour else c.atMinute (c.minute + 1)

/-- The next second. -/
def nextSecond (c : Cursor) : Cursor :=
  if 59 ≤ c.second then c.nextMinute else c.atSecond (c.second + 1)

/-- The first whole second at or after a datetime, and no earlier than the first year that
expressions match. -/
def ofDateTime (t : DateTime) : Cursor :=
  if t.date.year < firstYear then
    atYear firstYear
  else
    let c : Cursor :=
      ⟨t.date.year.toNat, t.date.month.number, t.date.day, t.time.hour, t.time.minute,
       t.time.second⟩
    if t.time.nanosecond = 0 then c else c.nextSecond

/-- The month in which a cursor lies. -/
def yearMonth (c : Cursor) : YearMonth :=
  ⟨c.year, Month.afterJanuary (c.month - 1)⟩

/-- The datetime at which a cursor lies, if there is one. -/
def dateTime? (c : Cursor) : Option DateTime :=
  DateTime.ofReading? c.year c.month c.day c.hour c.minute c.second 0

end Cursor

/-- The outcome of one step of a search. -/
inductive Move where
  | found
  | goOn (c : Cursor)
  | exhausted
  deriving DecidableEq

/-- Look for the first refused component of a cursor below the day. -/
def moveInDay (e : Cron) (c : Cursor) : Move :=
  match e.hours.nextFrom? c.hour 23 with
  | none => .goOn c.nextDay
  | some hour =>
      if hour ≠ c.hour then
        .goOn (c.atHour hour)
      else
        match e.minutes.nextFrom? c.minute 59 with
        | none => .goOn c.nextHour
        | some minute =>
            if minute ≠ c.minute then
              .goOn (c.atMinute minute)
            else
              match e.seconds.nextFrom? c.second 59 with
              | none => .goOn c.nextMinute
              | some second => if second ≠ c.second then .goOn (c.atSecond second) else .found

/-- Look for the first refused component of a cursor and move the cursor past it. -/
def move (e : Cron) (c : Cursor) : Move :=
  if lastYear < c.year then
    .exhausted
  else
    match e.years.nextFrom? c.year lastYear with
    | none => .exhausted
    | some year =>
        if year ≠ c.year then
          .goOn (Cursor.atYear year)
        else
          match e.months.nextFrom? c.month 12 with
          | none => .goOn (Cursor.atYear (c.year + 1))
          | some month =>
              if month ≠ c.month then
                .goOn (c.atMonth month)
              else if c.yearMonth.length < c.day then
                .goOn c.nextMonth
              else if !e.acceptsDay c.yearMonth c.day then
                .goOn c.nextDay
              else
                e.moveInDay c

/-- Search for a match from a cursor on, in at most the given number of steps.  The step that
finds the match counts. -/
def search (e : Cron) : Nat → Cursor → Option DateTime
  | 0, _ => none
  | steps + 1, c =>
      match e.move c with
      | .found => c.dateTime?
      | .goOn next => e.search steps next
      | .exhausted => none

/-- The number of steps that a search may take unless it is told otherwise. -/
def defaultSteps : Nat := 100000

/-- The first match at or after a datetime that a search finds. -/
def nextMatch? (e : Cron) (steps : Nat) (start : DateTime) : Option DateTime :=
  e.search steps (Cursor.ofDateTime start)

end Cron

/-- A place in the sequence of matches of a cron expression: the datetime from which the next
search starts, or none after the end. -/
structure Matches where
  cron : Cron
  position : Option DateTime
  steps : Nat
  deriving DecidableEq

namespace Cron

/-- The matches of an expression at or after a start, each found in at most the given number
of steps. -/
def occurrences (e : Cron) (start : DateTime) (steps : Nat) : Matches :=
  ⟨e, some start, steps⟩

end Cron

namespace Matches

/-- The next match, if there is one, and the place after it. -/
def next (m : Matches) : Option DateTime × Matches :=
  match m.position.bind (m.cron.nextMatch? m.steps) with
  | some t => (some t, { m with position := t.addSeconds? 1 })
  | none => (none, { m with position := none })

end Matches
end Timetable
