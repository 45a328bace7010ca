/-!
# Kinds of cron fields

The seven fields that a cron expression can have, with the values that each may hold.  The
day of the week is the one kind whose values have two spellings: in text Sunday is 0 or 7,
and 0 is the value that is kept.
-/

namespace Timetable
namespace Cron

/-- The seven kinds of fields. -/
inductive Kind where
  | second
  | minute
  | hour
  | dayOfMonth
  | month
  | dayOfWeek
  | year
  deriving DecidableEq

namespace Kind

/-- The kind's name in a message. -/
def name : Kind → String
  | .second => "second"
  | .minute => "minute"
  | .hour => "hour"
  | .dayOfMonth => "day-of-month"
  | .month => "month"
  | .dayOfWeek => "day-of-week"
  | .year => "year"

/-- The least value. -/
def least : Kind → Nat
  | .second | .minute | .hour | .dayOfWeek => 0
  | .dayOfMonth | .month => 1
  | .year => 1970

/-- The greatest value that is kept. -/
def greatest : Kind → Nat
  | .second | .minute => 59
  | .hour => 23
  | .dayOfMonth => 31
  | .month => 12
  | .dayOfWeek => 6
  | .year => 2099

/-- The greatest value that may be written. -/
def greatestWritten : Kind → Nat
  | .dayOfWeek => 7
  | k => k.greatest

/-- The written values that stand for a value. -/
def spellings (k : Kind) (v : Nat) : List Nat :=
  if k = .dayOfWeek && v = 0 then [0, 7] else [v]

/-- All values in ascending order. -/
def values (k : Kind) : List Nat :=
  (List.range (k.greatest + 1 - k.least)).map fun i => k.least + i

/-- Whether a question mark may stand for all values. -/
def allowsQuestionMark (k : Kind) : Bool :=
  k = .dayOfMonth || k = .dayOfWeek

theorem mem_values_iff {k : Kind} {v : Nat} :
    v ∈ k.values ↔ k.least ≤ v ∧ v ≤ k.greatest := by
  simp only [values, List.mem_map, List.mem_range]
  constructor
  · rintro ⟨i, hi, rfl⟩
    omega
  · rintro ⟨hle, hge⟩
    exact ⟨v - k.least, by omega, by omega⟩

end Kind
end Cron
end Timetable
