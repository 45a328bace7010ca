/-!
# Months of the year

The twelve months, their names and numbers, their lengths, and the number of days of the
year that precede each of them.  `ofYearDay` finds the month of a day of the year.
-/

namespace Timetable
namespace Civil

/-- The months of the Gregorian year. -/
inductive Month where
  | january
  | february
  | march
  | april
  | may
  | june
  | july
  | august
  | september
  | october
  | november
  | december
  deriving DecidableEq

namespace Month

/-- The twelve months from January on. -/
def all : List Month :=
  [.january, .february, .march, .april, .may, .june, .july, .august, .september,
   .october, .november, .december]

/-- The month's number, January 1 to December 12. -/
def number : Month → Nat
  | .january => 1
  | .february => 2
  | .march => 3
  | .april => 4
  | .may => 5
  | .june => 6
  | .july => 7
  | .august => 8
  | .september => 9
  | .october => 10
  | .november => 11
  | .december => 12

/-- The month that comes `n` months after a January. -/
def afterJanuary (n : Nat) : Month :=
  match n % 12 with
  | 0 => .january
  | 1 => .february
  | 2 => .march
  | 3 => .april
  | 4 => .may
  | 5 => .june
  | 6 => .july
  | 7 => .august
  | 8 => .september
  | 9 => .october
  | 10 => .november
  | _ => .december

/-- The month with a number from 1 to 12. -/
def ofNumber? (n : Nat) : Option Month :=
  if 1 ≤ n ∧ n ≤ 12 then some (afterJanuary (n - 1)) else none

/-- The three letters that name a month in a cron field. -/
def abbreviation : Month → String
  | .january => "JAN"
  | .february => "FEB"
  | .march => "MAR"
  | .april => "APR"
  | .may => "MAY"
  | .june => "JUN"
  | .july => "JUL"
  | .august => "AUG"
  | .september => "SEP"
  | .october => "OCT"
  | .november => "NOV"
  | .december => "DEC"

/-- The month's English name in small letters. -/
def name : Month → String
  | .january => "january"
  | .february => "february"
  | .march => "march"
  | .april => "april"
  | .may => "may"
  | .june => "june"
  | .july => "july"
  | .august => "august"
  | .september => "september"
  | .october => "october"
  | .november => "november"
  | .december => "december"

/-- The month with the given three letters, in either case. -/
def ofAbbreviation? (cs : List Char) : Option Month :=
  all.find? fun m => m.abbreviation.toList == cs.map Char.toUpper

/-- The number of days of a month, in a leap year or another. -/
def length (m : Month) (leap : Bool) : Nat :=
  match m with
  | .february => if leap then 29 else 28
  | .april | .june | .september | .november => 30
  | _ => 31

/-- The number of days of the year before the first of a month. -/
def daysBefore (m : Month) (leap : Bool) : Nat :=
  let extra := if leap then 1 else 0
  match m with
  | .january => 0
  | .february => 31
  | .march => 59 + extra
  | .april => 90 + extra
  | .may => 120 + extra
  | .june => 151 + extra
  | .july => 181 + extra
  | .august => 212 + extra
  | .september => 243 + extra
  | .october => 273 + extra
  | .november => 304 + extra
  | .december => 334 + extra

/-- The month that holds a day of the year; `n` days of the year precede that day. -/
def ofYearDay (leap : Bool) (n : Nat) : Month :=
  let extra := if leap then 1 else 0
  if n < 31 then .january
  else if n < 59 + extra then .february
  else if n < 90 + extra then .march
  else if n < 120 + extra then .april
  else if n < 151 + extra then .may
  else if n < 181 + extra then .june
  else if n < 212 + extra then .july
  else if n < 243 + extra then .august
  else if n < 273 + extra then .september
  else if n < 304 + extra then .october
  else if n < 334 + extra then .november
  else .december

theorem one_le_number (m : Month) : 1 ≤ m.number := by
  cases m <;> decide

theorem number_le (m : Month) : m.number ≤ 12 := by
  cases m <;> decide

theorem number_afterJanuary : ∀ n < 12, (afterJanuary n).number = n + 1 := by
  decide

@[simp] theorem afterJanuary_number_sub_one (m : Month) :
    afterJanuary (m.number - 1) = m := by
  cases m <;> rfl

@[simp] theorem ofNumber?_number (m : Month) : ofNumber? m.number = some m := by
  cases m <;> rfl

theorem one_le_length (m : Month) (leap : Bool) : 1 ≤ m.length leap := by
  cases m <;> cases leap <;> decide

theorem daysBefore_add_length_le (m : Month) (leap : Bool) :
    m.daysBefore leap + m.length leap ≤ if leap then 366 else 365 := by
  cases m <;> cases leap <;> decide

private theorem ofYearDay_bounds : ∀ leap : Bool, ∀ n < (if leap then 366 else 365),
    (ofYearDay leap n).daysBefore leap ≤ n ∧
      n < (ofYearDay leap n).daysBefore leap + (ofYearDay leap n).length leap := by
  decide +kernel

theorem daysBefore_ofYearDay_le {leap : Bool} {n : Nat}
    (h : n < if leap then 366 else 365) : (ofYearDay leap n).daysBefore leap ≤ n :=
  (ofYearDay_bounds leap n h).1

theorem lt_daysBefore_ofYearDay_add_length {leap : Bool} {n : Nat}
    (h : n < if leap then 366 else 365) :
    n < (ofYearDay leap n).daysBefore leap + (ofYearDay leap n).length leap :=
  (ofYearDay_bounds leap n h).2

/-- A day of the year lies in the month between whose first and last day it falls. -/
theorem ofYearDay_daysBefore_add {m : Month} {leap : Bool} {d : Nat}
    (h : d < m.length leap) : ofYearDay leap (m.daysBefore leap + d) = m := by
  have hcases : ∀ e < 31, e < m.length leap → ofYearDay leap (m.daysBefore leap + e) = m := by
    cases m <;> cases leap <;> decide +kernel
  have hlength : m.length leap ≤ 31 := by
    cases m <;> cases leap <;> decide
  exact hcases d (by omega) h

end Month

end Civil
end Timetable
