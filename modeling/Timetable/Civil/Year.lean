/-!
# Years of the civil calendar

The proleptic Gregorian calendar: every fourth year is a leap year, except that of the
years divisible by 100 only those divisible by 400 are.  Years are whole numbers; the year
before year 1 is year 0.

Days are numbered from 1 January of year 0, which is day 0.  `yearOfDay` inverts
`daysBeforeYear`: a day lies in exactly one year.
-/

namespace Timetable
namespace Civil

/-- Whether a year has a 29 February. -/
def isLeapYear (year : Int) : Bool :=
  year % 4 = 0 && (year % 100 ≠ 0 || year % 400 = 0)

/-- The number of days of a year. -/
def daysInYear (year : Int) : Nat :=
  if isLeapYear year then 366 else 365

/-- The number of days from 1 January of year 0 to 1 January of a year, negative for a year
before year 0. -/
def daysBeforeYear (year : Int) : Int :=
  365 * year + (year + 3) / 4 - (year + 99) / 100 + (year + 399) / 400

/-- The year in which a day lies.  The average length of a year gives a guess that is off
by at most one. -/
def yearOfDay (day : Int) : Int :=
  let guess := 400 * day / 146097
  if day < daysBeforeYear guess then
    guess - 1
  else if daysBeforeYear (guess + 1) ≤ day then
    guess + 1
  else
    guess

theorem daysBeforeYear_succ (year : Int) :
    daysBeforeYear (year + 1) = daysBeforeYear year + daysInYear year := by
  simp only [daysBeforeYear, daysInYear, isLeapYear, Bool.and_eq_true, Bool.or_eq_true,
    decide_eq_true_eq]
  split <;> omega

/-- Four hundred years have 146097 days, up to less than two days of a single year. -/
private theorem daysBeforeYear_average (year : Int) :
    146097 * year - 396 ≤ 400 * daysBeforeYear year ∧
      400 * daysBeforeYear year ≤ 146097 * year + 699 := by
  simp only [daysBeforeYear]
  omega

theorem daysBeforeYear_yearOfDay_le (day : Int) : daysBeforeYear (yearOfDay day) ≤ day := by
  have hbefore := daysBeforeYear_average (400 * day / 146097 - 1)
  unfold yearOfDay
  dsimp only
  split
  · omega
  · split <;> omega

theorem lt_daysBeforeYear_yearOfDay_succ (day : Int) :
    day < daysBeforeYear (yearOfDay day + 1) := by
  have hafter := daysBeforeYear_average (400 * day / 146097 + 1 + 1)
  unfold yearOfDay
  dsimp only
  split
  · rwa [Int.sub_add_cancel]
  · split <;> omega

/-- Of two years the earlier one begins on the earlier day. -/
theorem daysBeforeYear_le_daysBeforeYear {early late : Int} (h : early ≤ late) :
    daysBeforeYear early ≤ daysBeforeYear late := by
  simp only [daysBeforeYear]
  omega

/-- A day lies in the year between whose first day and the next year's it falls. -/
theorem yearOfDay_eq {day year : Int} (hle : daysBeforeYear year ≤ day)
    (hlt : day < daysBeforeYear (year + 1)) : yearOfDay day = year := by
  have hfirst := daysBeforeYear_yearOfDay_le day
  have hnext := lt_daysBeforeYear_yearOfDay_succ day
  rcases Int.lt_trichotomy (yearOfDay day) year with hless | heq | hmore
  · have := daysBeforeYear_le_daysBeforeYear hless
    omega
  · exact heq
  · have := daysBeforeYear_le_daysBeforeYear hmore
    omega

end Civil
end Timetable
