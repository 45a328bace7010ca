import Timetable.Diagnostic
import Timetable.Rule.Basic
import Timetable.Rule.Fault

/-!
# Drafts of rules

A `Draft` holds the values from which a rule is to be made, whatever they are.  `build`
makes the rule if the values fit each other and lie in their ranges, and otherwise names
the first fault.

The order of the checks is: the interval, the two endings, the lists that the frequency has
no use for, then the ranges of the lists.
-/

namespace Timetable

open Civil

/-- The values from which a rule is to be made. -/
structure Draft where
  frequency : Frequency
  interval : Nat
  count : Option Nat
  deadline : Option DateTime
  weekStart : Weekday
  months : List Month
  yearDays : List Int
  monthDays : List Int
  weekdays : List WeekdaySelector
  hours : List Nat
  minutes : List Nat
  seconds : List Nat
  setPositions : List Int
  deriving DecidableEq

namespace Draft

/-- The draft with a frequency and nothing else: every single time, weeks that begin on
Monday, no end and no lists. -/
def ofFrequency (frequency : Frequency) : Draft :=
  ⟨frequency, 1, none, none, .monday, [], [], [], [], [], [], [], []⟩

/-- Set the deadline.  It has whole seconds; a fraction is dropped. -/
def withDeadline (d : Draft) (t : DateTime) : Draft :=
  { d with deadline := some t.truncate }

/-- Refuse the first value outside a range. -/
def checkRange (range : ValueRange) (values : List Int) : Except Rule.Fault Unit :=
  match values.find? fun n => !range.contains n with
  | some n => .error (.outOfRange range n)
  | none => .ok ()

/-- Refuse the draft unless a condition holds. -/
def require (condition : Bool) (fault : Rule.Fault) : Except Rule.Fault Unit :=
  if condition then .ok () else .error fault

/-- The checks of a draft other than that of its interval, in their order. -/
def check (d : Draft) : Except Rule.Fault Unit := do
  require (d.count.isNone || d.deadline.isNone) .twoEndings
  require (d.yearDays.isEmpty || d.frequency = .yearly) (.notAllowed "BYYEARDAY" d.frequency)
  require (d.monthDays.isEmpty || d.frequency ≠ .weekly) (.notAllowed "BYMONTHDAY" d.frequency)
  require (d.frequency.allowsOrdinals || d.weekdays.all fun s => s.ordinal.isNone)
    (.ordinalNotAllowed d.frequency)
  checkRange .yearDay d.yearDays
  checkRange .monthDay d.monthDays
  checkRange .hour (d.hours.map Int.ofNat)
  checkRange .minute (d.minutes.map Int.ofNat)
  checkRange .second (d.seconds.map Int.ofNat)
  checkRange .setPosition d.setPositions
  checkRange .ordinal (d.weekdays.filterMap WeekdaySelector.ordinal)

/-- The ending that a draft asks for. -/
def ending (d : Draft) : Option Ending :=
  match d.count, d.deadline with
  | some n, _ => some (.count n)
  | none, some t => some (.deadline t)
  | none, none => none

/-- Make the rule, or name the first fault. -/
def build (d : Draft) : Except Rule.Fault Rule :=
  if h : 0 < d.interval then
    d.check.map fun _ =>
      { frequency := d.frequency
        interval := d.interval
        ending := d.ending
        weekStart := d.weekStart
        months := d.months
        yearDays := d.yearDays
        monthDays := d.monthDays
        weekdays := d.weekdays
        hours := d.hours
        minutes := d.minutes
        seconds := d.seconds
        setPositions := d.setPositions
        interval_pos := h }
  else
    .error .zeroInterval

end Draft

namespace Rule

/-- Make the rule of a draft, or report the first fault as one of an argument. -/
def ofDraft (d : Draft) : Except Diagnostic Rule :=
  d.build.mapError fun fault => .argument fault.message

/-- The draft that holds a rule's values. -/
def toDraft (r : Rule) : Draft :=
  { frequency := r.frequency
    interval := r.interval
    count := r.count?
    deadline := r.deadline?
    weekStart := r.weekStart
    months := r.months
    yearDays := r.yearDays
    monthDays := r.monthDays
    weekdays := r.weekdays
    hours := r.hours
    minutes := r.minutes
    seconds := r.seconds
    setPositions := r.setPositions }

/-- What is promised of a rule that was built: its values pass the checks of a draft. -/
def Valid (r : Rule) : Prop :=
  r.toDraft.check.isOk

instance (r : Rule) : Decidable r.Valid :=
  inferInstanceAs (Decidable (_ = true))

end Rule
end Timetable
