import Timetable.Civil.Month
import Timetable.Civil.Year

/-!
# Months of the calendar

A month of a particular year.  Months are counted through the years by `index`, so that a
month can be shifted by any number of months; `ofIndex` is the inverse of `index`.
-/

namespace Timetable
namespace Civil

/-- A month of a particular year. -/
structure YearMonth where
  year : Int
  month : Month
  deriving DecidableEq

namespace YearMonth

/-- The number of days of the month. -/
def length (ym : YearMonth) : Nat :=
  ym.month.length (isLeapYear ym.year)

/-- The number of the month's first day. -/
def firstDay (ym : YearMonth) : Int :=
  daysBeforeYear ym.year + ym.month.daysBefore (isLeapYear ym.year)

/-- The number of months from January of year 0. -/
def index (ym : YearMonth) : Int :=
  12 * ym.year + (ym.month.number - 1 : Nat)

/-- The month that comes a number of months after January of year 0. -/
def ofIndex (n : Int) : YearMonth :=
  ⟨n / 12, Month.afterJanuary (n % 12).toNat⟩

/-- The month that comes `n` months later. -/
def shift (ym : YearMonth) (n : Int) : YearMonth :=
  ofIndex (ym.index + n)

/-- The greatest number of months by which a month can be moved at once: those of 19998
years. -/
def greatestShift : Nat := 239976

/-- The month that comes `n` months later, if that is not too far. -/
def later? (ym : YearMonth) (n : Nat) : Option YearMonth :=
  if n ≤ greatestShift then some (ym.shift n) else none

/-- The month in which a day lies. -/
def ofDay (day : Int) : YearMonth :=
  let year := yearOfDay day
  ⟨year, Month.ofYearDay (isLeapYear year) (day - daysBeforeYear year).toNat⟩

theorem one_le_length (ym : YearMonth) : 1 ≤ ym.length :=
  ym.month.one_le_length _

@[simp] theorem ofIndex_index (ym : YearMonth) : ofIndex ym.index = ym := by
  have hle := ym.month.number_le
  have hpos := ym.month.one_le_number
  have hyear : ym.index / 12 = ym.year := by simp only [index]; omega
  have hmonth : (ym.index % 12).toNat = ym.month.number - 1 := by simp only [index]; omega
  simp [ofIndex, hyear, hmonth]

@[simp] theorem index_ofIndex (n : Int) : (ofIndex n).index = n := by
  have hlt : (n % 12).toNat < 12 := by omega
  simp only [ofIndex, index, Month.number_afterJanuary _ hlt]
  omega

@[simp] theorem index_shift (ym : YearMonth) (n : Int) : (ym.shift n).index = ym.index + n := by
  simp [shift]

private theorem day_sub_daysBeforeYear_lt (day : Int) :
    (day - daysBeforeYear (yearOfDay day)).toNat <
      if isLeapYear (yearOfDay day) then 366 else 365 := by
  have hle := daysBeforeYear_yearOfDay_le day
  have hlt := lt_daysBeforeYear_yearOfDay_succ day
  rw [daysBeforeYear_succ, daysInYear] at hlt
  split at hlt <;> simp_all <;> omega

theorem firstDay_ofDay_le (day : Int) : (ofDay day).firstDay ≤ day := by
  have hle := daysBeforeYear_yearOfDay_le day
  have hmonth := Month.daysBefore_ofYearDay_le (day_sub_daysBeforeYear_lt day)
  simp only [ofDay, firstDay]
  omega

theorem lt_firstDay_ofDay_add_length (day : Int) :
    day < (ofDay day).firstDay + (ofDay day).length := by
  have hle := daysBeforeYear_yearOfDay_le day
  have hmonth := Month.lt_daysBefore_ofYearDay_add_length (day_sub_daysBeforeYear_lt day)
  simp only [ofDay, firstDay, length]
  omega

/-- A day lies in the month between whose first and last day it falls. -/
theorem ofDay_firstDay_add {ym : YearMonth} {d : Nat} (h : d < ym.length) :
    ofDay (ym.firstDay + d) = ym := by
  have hbound := ym.month.daysBefore_add_length_le (isLeapYear ym.year)
  have hsucc := daysBeforeYear_succ ym.year
  simp only [length] at h
  have hyear : yearOfDay (ym.firstDay + d) = ym.year := by
    apply yearOfDay_eq
    · simp only [firstDay]
      omega
    · rw [hsucc, daysInYear]
      simp only [firstDay]
      split <;> simp_all <;> omega
  have hday : (ym.firstDay + d - daysBeforeYear ym.year).toNat =
      ym.month.daysBefore (isLeapYear ym.year) + d := by
    simp only [firstDay]
    omega
  simp only [ofDay, hyear, hday, Month.ofYearDay_daysBefore_add h]

end YearMonth

end Civil
end Timetable
