import Timetable.Civil.Weekday
import Timetable.Civil.YearMonth

/-!
# Dates

A `Date` is a day of the calendar from 1 January of the year -9999 to 31 December 9999.  It
is held as its day number, so the order of dates and the distance between them are those of
whole numbers.  Arithmetic that leaves the calendar has no result.
-/

namespace Timetable
namespace Civil

/-- A day of the calendar, by its number. -/
structure Date where
  number : Int
  first_le : -3652059 ≤ number
  le_last : number ≤ 3652424
  deriving DecidableEq

namespace Date

/-- The date with a day number, if the calendar has it. -/
def ofNumber? (n : Int) : Option Date :=
  if h : -3652059 ≤ n ∧ n ≤ 3652424 then some ⟨n, h.1, h.2⟩ else none

/-- The month in which a date lies. -/
def yearMonth (d : Date) : YearMonth :=
  YearMonth.ofDay d.number

/-- The year in which a date lies. -/
def year (d : Date) : Int :=
  yearOfDay d.number

/-- The month of the year in which a date lies. -/
def month (d : Date) : Month :=
  d.yearMonth.month

/-- The day of the month, from 1. -/
def day (d : Date) : Nat :=
  (d.number - d.yearMonth.firstDay).toNat + 1

/-- The day of the year, from 1. -/
def yearDay (d : Date) : Nat :=
  (d.number - daysBeforeYear d.year).toNat + 1

/-- The day of the week.  Day 0 is a Saturday. -/
def weekday (d : Date) : Weekday :=
  Weekday.afterMonday ((d.number + 5) % 7).toNat

/-- The date with a day of a month, if that month has the day and the calendar the month. -/
def ofDay? (ym : YearMonth) (day : Nat) : Option Date :=
  if 1 ≤ day ∧ day ≤ ym.length then ofNumber? (ym.firstDay + (day - 1 : Nat)) else none

/-- The date `n` days later. -/
def addDays? (d : Date) (n : Int) : Option Date :=
  ofNumber? (d.number + n)

/-- The `n` consecutive dates from a day number on, less those outside the calendar. -/
def run (first : Int) (n : Nat) : List Date :=
  (List.range n).filterMap fun (i : Nat) => ofNumber? (first + i)

theorem ext_number {d e : Date} (h : d.number = e.number) : d = e := by
  cases d
  cases e
  simp_all

@[simp] theorem ofNumber?_number (d : Date) : ofNumber? d.number = some d := by
  simp [ofNumber?, d.first_le, d.le_last]

theorem ofNumber?_eq_some_iff {n : Int} {d : Date} : ofNumber? n = some d ↔ d.number = n := by
  constructor
  · intro h
    unfold ofNumber? at h
    split at h
    · simp only [Option.some.injEq] at h
      rw [← h]
    · simp at h
  · rintro rfl
    exact ofNumber?_number d

theorem addDays?_eq_some_iff {d e : Date} {n : Int} :
    d.addDays? n = some e ↔ e.number = d.number + n :=
  ofNumber?_eq_some_iff

private theorem year_bounds (d : Date) : -9999 ≤ d.year ∧ d.year ≤ 9999 := by
  have hfirst := d.first_le
  have hlast := d.le_last
  have hle := daysBeforeYear_yearOfDay_le d.number
  have hlt := lt_daysBeforeYear_yearOfDay_succ d.number
  simp only [Date.year]
  generalize yearOfDay d.number = year at *
  simp only [daysBeforeYear] at hle hlt
  omega

theorem le_year (d : Date) : -9999 ≤ d.year :=
  (year_bounds d).1

theorem year_le (d : Date) : d.year ≤ 9999 :=
  (year_bounds d).2

@[simp] theorem yearMonth_year (d : Date) : d.yearMonth.year = d.year := rfl

theorem one_le_day (d : Date) : 1 ≤ d.day := by
  simp [day]

theorem day_le_length (d : Date) : d.day ≤ d.yearMonth.length := by
  have hle := YearMonth.firstDay_ofDay_le d.number
  have hlt := YearMonth.lt_firstDay_ofDay_add_length d.number
  simp only [day, yearMonth]
  omega

/-- A date is its month and its day of the month. -/
theorem number_eq (d : Date) : d.number = d.yearMonth.firstDay + (d.day - 1 : Nat) := by
  have hle := YearMonth.firstDay_ofDay_le d.number
  simp only [day, yearMonth]
  omega

@[simp] theorem ofDay?_yearMonth_day (d : Date) : ofDay? d.yearMonth d.day = some d := by
  rw [ofDay?, if_pos ⟨d.one_le_day, d.day_le_length⟩, ofNumber?_eq_some_iff]
  exact d.number_eq

/-- A date built from a month and a day of it has that month and that day. -/
theorem yearMonth_day_of_ofDay? {ym : YearMonth} {day : Nat} {d : Date}
    (h : ofDay? ym day = some d) : d.yearMonth = ym ∧ d.day = day := by
  unfold ofDay? at h
  split at h
  next hday =>
    rw [ofNumber?_eq_some_iff] at h
    have hmonth : d.yearMonth = ym := by
      rw [yearMonth, h, YearMonth.ofDay_firstDay_add (by omega)]
    refine ⟨hmonth, ?_⟩
    rw [Date.day, hmonth, h]
    omega
  next => simp at h

theorem mem_run_iff {first : Int} {n : Nat} {d : Date} :
    d ∈ run first n ↔ first ≤ d.number ∧ d.number < first + n := by
  simp only [run, List.mem_filterMap, List.mem_range, ofNumber?_eq_some_iff]
  constructor
  · rintro ⟨i, hi, h⟩
    omega
  · rintro ⟨hle, hlt⟩
    exact ⟨(d.number - first).toNat, by omega, by omega⟩

end Date

end Civil
end Timetable
