import Timetable.Rule.Period

/-!
# The occurrences of a rule

`Occurrences` is a place in the sequence of datetimes at which a rule happens, followed from
a start.  `next` gives the next datetime and the place after it.  Once the sequence has
ended it stays ended.

The search for the next period with a candidate has no bound of its own.  It ends because
period numbers grow and only finitely many lie inside the calendar.
-/

namespace Timetable

open Civil

/-- A place in the sequence of a rule's occurrences. -/
structure Occurrences where
  rule : Rule
  start : DateTime
  /-- The number of the period to evaluate next. -/
  period : Nat
  /-- The candidates of the last evaluated period that are still to come. -/
  pending : List DateTime
  /-- How many occurrences the rule's count still allows. -/
  remaining : Option Nat
  ended : Bool
  deriving DecidableEq

namespace Rule

/-- Whether a tick of a rule followed from `start`, `distance` seconds after the last one,
can come to a time of day that counts.  Ticks reach the times that differ from the start's
by a multiple of the greatest common divisor of their distance and a day. -/
def reachesTickTime (r : Rule) (start : Time) (distance : Nat) : Bool :=
  let reach := Nat.gcd distance 86400
  ((r.tickTimes start).firstFrom? 0 fun t => t % reach = start.secondOfDay % reach).isSome

/-- Whether a rule has no occurrence after any period, for its times of day alone: it lists
no second but 60, or no tick comes to a time of day that counts. -/
def neverOccurs (r : Rule) (start : Time) : Bool :=
  (!r.seconds.isEmpty && r.seconds.all (60 ≤ ·)) ||
    r.frequency.unitSeconds?.any fun unit => !r.reachesTickTime start (unit * r.interval)

/-- The occurrences of a rule at or after a start. -/
def occurrences (r : Rule) (start : DateTime) : Occurrences :=
  ⟨r, start, 0, [], r.count?, r.neverOccurs start.time⟩

end Rule

namespace Occurrences

/-- The place at the end of the sequence. -/
def finish (o : Occurrences) : Occurrences :=
  { o with pending := [], ended := true }

/-- Whether a datetime lies past the rule's deadline. -/
def isTooLate (o : Occurrences) (t : DateTime) : Bool :=
  o.rule.deadline?.any (· < t)

/-- Give the first pending candidate; evaluate periods as long as there is none. -/
def advance (o : Occurrences) : Option DateTime × Occurrences :=
  match o.pending with
  | t :: rest =>
      if o.isTooLate t then
        (none, o.finish)
      else
        (some t, { o with pending := rest, remaining := o.remaining.map (· - 1) })
  | [] =>
      match _hperiod : o.rule.period? o.start o.period with
      | none => (none, o.finish)
      | some p =>
          if o.isTooLate p.floor then
            (none, o.finish)
          else
            advance { o with pending := p.candidates, period := p.following }
termination_by Rule.periodLimit - o.period
decreasing_by
  have hfollowing := Rule.lt_following_of_period? _hperiod
  have hlimit := Rule.lt_periodLimit_of_period? _hperiod
  show Rule.periodLimit - p.following < Rule.periodLimit - o.period
  omega

/-- The next occurrence, if there is one, and the place after it. -/
def next (o : Occurrences) : Option DateTime × Occurrences :=
  if o.ended then
    (none, o)
  else if o.remaining = some 0 then
    (none, o.finish)
  else
    o.advance

end Occurrences

/-- The occurrences of a rule that are not later than `last`. -/
structure BoundedOccurrences where
  inner : Occurrences
  last : DateTime
  deriving DecidableEq

namespace Rule

/-- The occurrences of a rule followed from `start`, up to and including `last`. -/
def between (r : Rule) (start last : DateTime) : BoundedOccurrences :=
  ⟨r.occurrences start, last⟩

end Rule

namespace BoundedOccurrences

/-- The next occurrence, if there is one that is not too late, and the place after it. -/
def next (b : BoundedOccurrences) : Option DateTime × BoundedOccurrences :=
  match b.inner.next with
  | (some t, inner) =>
      if t ≤ b.last then (some t, { b with inner }) else (none, { b with inner := inner.finish })
  | (none, inner) => (none, { b with inner })

end BoundedOccurrences
end Timetable
