import Timetable.Rule.Basic

/-!
# Times of day

A `Clock` is a set of hours, minutes and seconds; its times of day are all the
combinations.  Each of the three lists ascends, so the times ascend too.

A rule uses its time lists in two ways.  Units finer than the frequency are expanded: every
listed value gives a time, and an empty list the time of the start or tick.  Units at or
above a frequency finer than a day limit it: only ticks at listed values count, and an
empty list admits all.  The second 60 is listed by some rules and never occurs.
-/

namespace Timetable

open Civil

/-- Hours, minutes and seconds, each in ascending order. -/
structure Clock where
  hours : List Nat
  minutes : List Nat
  seconds : List Nat
  deriving DecidableEq

namespace Clock

/-- All combinations, as seconds of the day in ascending order. -/
def times (c : Clock) : List Nat :=
  c.hours.flatMap fun h => c.minutes.flatMap fun m => c.seconds.map fun s =>
    3600 * h + 60 * m + s

/-- The first combination at or after `start` that `accept` accepts.  Hours and minutes that
are over before `start` are passed over as a whole. -/
def firstFrom? (c : Clock) (start : Nat) (accept : Nat → Bool) : Option Nat :=
  (c.hours.filter fun h => start < 3600 * (h + 1)).findSome? fun h =>
    (c.minutes.filter fun m => start < 3600 * h + 60 * (m + 1)).findSome? fun m =>
      (c.seconds.map fun s => 3600 * h + 60 * m + s).find? fun t => start ≤ t && accept t

/-- The listed values below `bound` in ascending order and without repetitions, or all
values below `bound` if nothing is listed. -/
def limit (listed : List Nat) (bound : Nat) : List Nat :=
  (List.range bound).filter fun v => listed.isEmpty || listed.contains v

/-- The listed values below `bound` in ascending order and without repetitions, or `own`
alone if nothing is listed. -/
def expand (listed : List Nat) (bound own : Nat) : List Nat :=
  if listed.isEmpty then [own] else limit listed bound

end Clock

namespace Rule

/-- The times into which a rule expands a day, or a tick of a frequency finer than a day.
What the rule leaves open is taken from `own`, the time of the start or of the tick. -/
def expansion (r : Rule) (own : Time) : Clock :=
  let minutes := Clock.expand r.minutes 60 own.minute
  let seconds := Clock.expand r.seconds 60 own.second
  match r.frequency with
  | .secondly => ⟨[own.hour], [own.minute], [own.second]⟩
  | .minutely => ⟨[own.hour], [own.minute], seconds⟩
  | .hourly => ⟨[own.hour], minutes, seconds⟩
  | _ => ⟨Clock.expand r.hours 24 own.hour, minutes, seconds⟩

/-- The times of day at which a tick of a frequency finer than a day counts.  Units finer
than the frequency are the start's at every tick. -/
def tickTimes (r : Rule) (start : Time) : Clock :=
  let hours := Clock.limit r.hours 24
  match r.frequency with
  | .hourly => ⟨hours, [start.minute], [start.second]⟩
  | .minutely => ⟨hours, Clock.limit r.minutes 60, [start.second]⟩
  | _ => ⟨hours, Clock.limit r.minutes 60, Clock.limit r.seconds 60⟩

/-- The datetimes of a rule on one date, in ascending order, with `own` as in
`expansion`. -/
def datetimesOn (r : Rule) (own : Time) (date : Date) : List DateTime :=
  (r.expansion own).times.filterMap fun second =>
    (own.withSecondOfDay? second).map fun time => ⟨date, time⟩

end Rule
end Timetable
