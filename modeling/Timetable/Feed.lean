import Timetable.Cron.Search
import Timetable.Rule.Occurrences

/-!
# Feeds of datetimes

A feed is a place in one of the three sequences of datetimes: the occurrences of a rule,
those up to a bound, and the matches of a cron expression.  Items are taken from it one at a
time, several at once, or after skipping some.
-/

namespace Timetable

open Civil

/-- A place in a sequence of datetimes. -/
inductive Feed where
  | occurrences (o : Occurrences)
  | bounded (b : BoundedOccurrences)
  | matched (m : Matches)
  deriving DecidableEq

namespace Feed

/-- The next item, if there is one, and the place after it. -/
def next : Feed → Option DateTime × Feed
  | .occurrences o => o.next.map id .occurrences
  | .bounded b => b.next.map id .bounded
  | .matched m => m.next.map id .matched

/-- What was taken from a feed: the items, whether the end was met, and the place after
them. -/
structure Taken where
  items : List DateTime
  metEnd : Bool
  rest : Feed
  deriving DecidableEq

/-- Take up to `n` items. -/
def take (f : Feed) : Nat → Taken
  | 0 => ⟨[], false, f⟩
  | n + 1 =>
      match f.next with
      | (none, rest) => ⟨[], true, rest⟩
      | (some t, rest) =>
          let taken := rest.take n
          { taken with items := t :: taken.items }

/-- Skip `n` items and give the next one. -/
def nth (f : Feed) : Nat → Option DateTime × Feed
  | 0 => f.next
  | n + 1 =>
      match f.next with
      | (none, rest) => (none, rest)
      | (some _, rest) => rest.nth n

end Feed
end Timetable
