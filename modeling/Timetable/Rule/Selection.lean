import Timetable.Rule.Basic
import Timetable.Rule.Position

/-!
# Which days a rule selects

`Rule.selects` decides whether a date is one of a rule's days, given the date of the start
from which the rule is followed.  Every list that is not empty has to accept the date.  If
a rule lists no days at all, the start's own day takes their place: its weekday in a weekly
rule, its day of the month in a monthly or yearly one.
-/

namespace Timetable

open Civil

namespace Rule

/-- Whether a rule's months accept a month. -/
def admitsMonth (r : Rule) (m : Month) : Bool :=
  r.months.isEmpty || r.months.contains m

/-- Whether a rule lists days of the year, days of the month or weekdays. -/
def listsDays (r : Rule) : Bool :=
  !(r.yearDays.isEmpty && r.monthDays.isEmpty && r.weekdays.isEmpty)

/-- The place of a day among the days of its year. -/
def yearPosition (d : Date) : Position :=
  Position.ofIndex d.yearDay (daysInYear d.year)

/-- The place of a day among the days of its month. -/
def monthPosition (d : Date) : Position :=
  Position.ofIndex d.day d.yearMonth.length

/-- The place of a day among those of the days around it that fall on the same weekday,
given its place among all of them. -/
def weekdayPosition (p : Position) : Position :=
  ⟨(p.front - 1) / 7 + 1, (p.back - 1) / 7 + 1⟩

/-- Whether the ordinals of a rule's weekdays count within the year.  Otherwise they count
within the month. -/
def countsWithinYear (r : Rule) : Bool :=
  r.frequency = .yearly && r.months.isEmpty

/-- The place that the ordinals of a rule's weekdays refer to. -/
def ordinalPosition (r : Rule) (d : Date) : Position :=
  weekdayPosition (if r.countsWithinYear then yearPosition d else monthPosition d)

/-- Whether a rule's days of the year accept a date. -/
def admitsYearDay (r : Rule) (d : Date) : Bool :=
  r.yearDays.isEmpty || r.yearDays.any (yearPosition d).isNamedBy

/-- Whether a rule's days of the month accept a date. -/
def admitsMonthDay (r : Rule) (d : Date) : Bool :=
  r.monthDays.isEmpty || r.monthDays.any (monthPosition d).isNamedBy

/-- Whether a rule's weekdays, with their ordinals, accept a date. -/
def admitsWeekday (r : Rule) (d : Date) : Bool :=
  r.weekdays.isEmpty || r.weekdays.any fun s =>
    s.weekday = d.weekday && s.ordinal.all (r.ordinalPosition d).isNamedBy

/-- Whether a date is the start's own day, which a rule that lists no days falls back on.
A day that the month lacks gives way to the month's last day, unless the rule lists
months. -/
def isStartDay (r : Rule) (start d : Date) : Bool :=
  match r.frequency with
  | .weekly => d.weekday = start.weekday
  | .monthly => d.day = min start.day d.yearMonth.length
  | .yearly =>
      if r.months.isEmpty then
        d.month = start.month && d.day = min start.day d.yearMonth.length
      else
        d.day = start.day
  | _ => true

/-- Whether a date is one of the days of a rule followed from `start`. -/
def selects (r : Rule) (start d : Date) : Bool :=
  r.admitsMonth d.month &&
    if r.listsDays then
      r.admitsYearDay d && r.admitsMonthDay d && r.admitsWeekday d
    else
      r.isStartDay start d

theorem admitsMonth_of_selects {r : Rule} {start d : Date} (h : r.selects start d = true) :
    r.admitsMonth d.month = true := by
  rw [selects, Bool.and_eq_true] at h
  exact h.1

end Rule
end Timetable
