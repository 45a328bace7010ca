/-!
# Days of the week

The seven days, with the three ways in which they are written and numbered: two letters in
a rule, three letters in a cron field, and a cron number that counts from Sunday.
-/

namespace Timetable
namespace Civil

/-- The days of the week. -/
inductive Weekday where
  | monday
  | tuesday
  | wednesday
  | thursday
  | friday
  | saturday
  | sunday
  deriving DecidableEq

namespace Weekday

/-- The seven days from Monday on. -/
def all : List Weekday :=
  [.monday, .tuesday, .wednesday, .thursday, .friday, .saturday, .sunday]

/-- The day's number in the week, Monday 1 to Sunday 7. -/
def number : Weekday → Nat
  | .monday => 1
  | .tuesday => 2
  | .wednesday => 3
  | .thursday => 4
  | .friday => 5
  | .saturday => 6
  | .sunday => 7

/-- The day's number in a cron field, Sunday 0 to Saturday 6. -/
def cronNumber (d : Weekday) : Nat :=
  d.number % 7

/-- The day that comes `n` days after a Monday. -/
def afterMonday (n : Nat) : Weekday :=
  match n % 7 with
  | 0 => .monday
  | 1 => .tuesday
  | 2 => .wednesday
  | 3 => .thursday
  | 4 => .friday
  | 5 => .saturday
  | _ => .sunday

/-- The day with a cron number; Sunday is both 0 and 7. -/
def ofCronNumber? (n : Nat) : Option Weekday :=
  if n ≤ 7 then some (afterMonday (n + 6)) else none

/-- The number of days from `start` forward to `d`, at most six. -/
def daysSince (d start : Weekday) : Nat :=
  (d.number + 7 - start.number) % 7

/-- The two letters that name a day in a rule. -/
def token : Weekday → String
  | .monday => "MO"
  | .tuesday => "TU"
  | .wednesday => "WE"
  | .thursday => "TH"
  | .friday => "FR"
  | .saturday => "SA"
  | .sunday => "SU"

/-- The three letters that name a day in a cron field. -/
def abbreviation : Weekday → String
  | .monday => "MON"
  | .tuesday => "TUE"
  | .wednesday => "WED"
  | .thursday => "THU"
  | .friday => "FRI"
  | .saturday => "SAT"
  | .sunday => "SUN"

/-- The day's English name in small letters. -/
def name : Weekday → String
  | .monday => "monday"
  | .tuesday => "tuesday"
  | .wednesday => "wednesday"
  | .thursday => "thursday"
  | .friday => "friday"
  | .saturday => "saturday"
  | .sunday => "sunday"

/-- The day with the given two letters, in either case. -/
def ofToken? (cs : List Char) : Option Weekday :=
  all.find? fun d => d.token.toList == cs.map Char.toUpper

/-- The day with the given three letters, in either case. -/
def ofAbbreviation? (cs : List Char) : Option Weekday :=
  all.find? fun d => d.abbreviation.toList == cs.map Char.toUpper

@[simp] theorem ofCronNumber?_cronNumber (d : Weekday) :
    ofCronNumber? d.cronNumber = some d := by
  cases d <;> rfl

@[simp] theorem ofToken?_token (d : Weekday) : ofToken? d.token.toList = some d := by
  cases d <;> rfl

theorem daysSince_lt (d start : Weekday) : d.daysSince start < 7 :=
  Nat.mod_lt _ (by decide)

end Weekday

end Civil
end Timetable
