import Timetable.Civil.DateTime

/-!
# Weeks, months and days in calendar order

Consecutive months follow each other without a gap, so months are ordered as their indices
are, and dates as their years, months and days: `Date.number_lt_iff`.  The days of the week
come back every seven days: `Date.daysSince_weekday`.
-/

namespace Timetable
namespace Civil

namespace Month

/-- The days before a month and its own are the days before the next one. -/
theorem daysBefore_add_length {m next : Month} (leap : Bool)
    (h : next.number = m.number + 1) :
    m.daysBefore leap + m.length leap = next.daysBefore leap := by
  cases leap <;> cases m <;> cases next <;> first | rfl | simp [number] at h

/-- Only February has another length in a leap year. -/
theorem length_eq_of_ne_february {m : Month} (h : m ≠ .february) (leap leap' : Bool) :
    m.length leap = m.length leap' := by
  cases m <;> first | rfl | exact absurd rfl h

theorem number_injective {a b : Month} (h : a.number = b.number) : a = b := by
  rw [← afterJanuary_number_sub_one a, ← afterJanuary_number_sub_one b, h]

theorem ofNumber?_eq_some_iff {n : Nat} {m : Month} : ofNumber? n = some m ↔ m.number = n := by
  constructor
  · intro h
    unfold ofNumber? at h
    split at h
    next hbounds =>
      rw [← Option.some.inj h, number_afterJanuary _ (by omega)]
      omega
    next => simp at h
  · intro h
    rw [← h]
    exact ofNumber?_number m

end Month

namespace Weekday

theorem one_le_number (d : Weekday) : 1 ≤ d.number := by
  cases d <;> decide

theorem number_le (d : Weekday) : d.number ≤ 7 := by
  cases d <;> decide

theorem number_injective {d e : Weekday} (h : d.number = e.number) : d = e := by
  cases d <;> cases e <;> first | rfl | simp [number] at h

theorem number_afterMonday {n : Nat} (h : n < 7) : (afterMonday n).number = n + 1 := by
  revert n
  decide

end Weekday

/-- The calendar has all days of its years. -/
theorem year_inside {year : Int} (hfirst : -9999 ≤ year) (hlast : year ≤ 9999) :
    -3652059 ≤ daysBeforeYear year ∧ daysBeforeYear year + daysInYear year ≤ 3652425 := by
  have hbegin := daysBeforeYear_le_daysBeforeYear hfirst
  have hend := daysBeforeYear_le_daysBeforeYear (show year + 1 ≤ 10000 by omega)
  rw [show daysBeforeYear (-9999) = -3652059 by decide] at hbegin
  rw [show daysBeforeYear 10000 = 3652425 by decide, daysBeforeYear_succ] at hend
  exact ⟨hbegin, hend⟩

namespace YearMonth

/-- The calendar has all days of the months of its years. -/
theorem inside_of_year (ym : YearMonth) (hfirst : -9999 ≤ ym.year) (hlast : ym.year ≤ 9999) :
    -3652059 ≤ ym.firstDay ∧ ym.firstDay + ym.length ≤ 3652425 := by
  have hmonth : ym.month.daysBefore (isLeapYear ym.year) + ym.length ≤ daysInYear ym.year :=
    ym.month.daysBefore_add_length_le (isLeapYear ym.year)
  have hyear := year_inside hfirst hlast
  simp only [firstDay]
  omega

theorem index_injective {a b : YearMonth} (h : a.index = b.index) : a = b := by
  rw [← ofIndex_index a, ← ofIndex_index b, h]

/-- The first day of the next month is the one after the last day of a month. -/
theorem firstDay_add_length {ym next : YearMonth} (h : next.index = ym.index + 1) :
    ym.firstDay + ym.length = next.firstDay := by
  obtain ⟨year, month⟩ := ym
  obtain ⟨year', month'⟩ := next
  have hpos := month.one_le_number
  have hle := month.number_le
  have hpos' := month'.one_le_number
  have hle' := month'.number_le
  simp only [index] at h
  by_cases hlast : month.number = 12
  · -- December is followed by January of the next year
    obtain rfl : year' = year + 1 := by omega
    obtain rfl : month = .december := Month.number_injective hlast
    obtain rfl : month' = .january :=
      Month.number_injective (show month'.number = 1 by omega)
    simp only [firstDay, length, daysBeforeYear_succ, daysInYear, Month.daysBefore,
      Month.length]
    split <;> omega
  · obtain rfl : year' = year := by omega
    have hdays := Month.daysBefore_add_length (isLeapYear year')
      (show month'.number = month.number + 1 by omega)
    simp only [firstDay, length]
    omega

private theorem firstDay_le_ofIndex_add (ym : YearMonth) (n : Nat) :
    ym.firstDay ≤ (ofIndex (ym.index + n)).firstDay := by
  induction n with
  | zero => simp
  | succ n ih =>
      have hnext : (ofIndex (ym.index + (n + 1 : Nat))).index =
          (ofIndex (ym.index + n)).index + 1 := by
        rw [index_ofIndex, index_ofIndex]
        omega
      have hstep := firstDay_add_length hnext
      omega

theorem firstDay_le_of_index_le {a b : YearMonth} (h : a.index ≤ b.index) :
    a.firstDay ≤ b.firstDay := by
  have hle := firstDay_le_ofIndex_add a (b.index - a.index).toNat
  rwa [show a.index + ((b.index - a.index).toNat : Int) = b.index by omega,
    ofIndex_index] at hle

/-- Of two months the earlier one is over when the later one begins. -/
theorem firstDay_add_length_le {a b : YearMonth} (h : a.index < b.index) :
    a.firstDay + a.length ≤ b.firstDay := by
  have hnext : (ofIndex (a.index + 1)).index = a.index + 1 := index_ofIndex _
  rw [firstDay_add_length hnext]
  apply firstDay_le_of_index_le
  omega

theorem year_le_of_index_le {a b : YearMonth} (h : a.index ≤ b.index) :
    a.year ≤ b.year := by
  have ha := a.month.one_le_number
  have hb := b.month.number_le
  simp only [index] at h
  omega

theorem year_le_year_shift (ym : YearMonth) {m n : Nat} (h : m ≤ n) :
    (ym.shift m).year ≤ (ym.shift n).year := by
  apply year_le_of_index_le
  rw [index_shift, index_shift]
  omega

@[simp] theorem shift_zero (ym : YearMonth) : ym.shift 0 = ym := by
  simp [shift]

theorem length_le (ym : YearMonth) : ym.length ≤ 31 := by
  unfold length Month.length
  cases ym.month <;> simp
  split <;> omega

/-- Every month has the days up to the 28th. -/
theorem le_length (ym : YearMonth) : 28 ≤ ym.length := by
  unfold length Month.length
  cases ym.month <;> simp
  split <;> omega

end YearMonth

namespace Date

theorem firstDay_le_number (d : Date) : d.yearMonth.firstDay ≤ d.number :=
  YearMonth.firstDay_ofDay_le d.number

theorem number_lt_firstDay_add_length (d : Date) :
    d.number < d.yearMonth.firstDay + d.yearMonth.length :=
  YearMonth.lt_firstDay_ofDay_add_length d.number

/-- A day lies in the month between whose first and last day it falls. -/
theorem yearMonth_eq {d : Date} {ym : YearMonth} (hle : ym.firstDay ≤ d.number)
    (hlt : d.number < ym.firstDay + ym.length) : d.yearMonth = ym := by
  have h := YearMonth.ofDay_firstDay_add
    (show (d.number - ym.firstDay).toNat < ym.length by omega)
  rwa [show ym.firstDay + ((d.number - ym.firstDay).toNat : Int) = d.number by omega] at h

theorem number_lt_of_index_lt {d e : Date} (h : d.yearMonth.index < e.yearMonth.index) :
    d.number < e.number := by
  have hd := d.number_lt_firstDay_add_length
  have he := e.firstDay_le_number
  have hmonths := YearMonth.firstDay_add_length_le h
  omega

theorem index_le_of_number_le {d e : Date} (h : d.number ≤ e.number) :
    d.yearMonth.index ≤ e.yearMonth.index := by
  apply Int.not_lt.mp
  intro hlt
  exact Int.not_lt.mpr h (number_lt_of_index_lt hlt)

theorem year_le_of_number_le {d e : Date} (h : d.number ≤ e.number) : d.year ≤ e.year :=
  YearMonth.year_le_of_index_le (index_le_of_number_le h)

/-- Dates are ordered by month, then by day. -/
theorem number_lt_iff_index {d e : Date} :
    d.number < e.number ↔
      d.yearMonth.index < e.yearMonth.index ∨
        d.yearMonth.index = e.yearMonth.index ∧ d.day < e.day := by
  rcases Int.lt_trichotomy d.yearMonth.index e.yearMonth.index with hlt | heq | hgt
  · exact iff_of_true (number_lt_of_index_lt hlt) (.inl hlt)
  · have hd := d.number_eq
    have he := e.number_eq
    have hd' := d.one_le_day
    have he' := e.one_le_day
    rw [YearMonth.index_injective heq] at hd
    omega
  · have hlt := number_lt_of_index_lt hgt
    omega

/-- Dates are ordered by year, then by month, then by day. -/
theorem number_lt_iff {d e : Date} :
    d.number < e.number ↔
      d.year < e.year ∨ d.year = e.year ∧
        (d.month.number < e.month.number ∨
          d.month.number = e.month.number ∧ d.day < e.day) := by
  have hd := d.month.one_le_number
  have hd' := d.month.number_le
  have he := e.month.one_le_number
  have he' := e.month.number_le
  rw [number_lt_iff_index]
  simp only [YearMonth.index, yearMonth_year]
  simp only [month] at *
  omega

/-- Consecutive dates ascend. -/
theorem run_ascends (first : Int) (n : Nat) :
    (run first n).Pairwise fun d e => d.number < e.number := by
  unfold run
  rw [List.pairwise_filterMap]
  apply List.pairwise_lt_range.imp
  intro i j hij d hd e he
  rw [ofNumber?_eq_some_iff] at hd he
  omega

/-- Day 2 is a Monday. -/
theorem number_weekday (d : Date) : (d.weekday.number : Int) = (d.number + 5) % 7 + 1 := by
  have hlt : ((d.number + 5) % 7).toNat < 7 := by omega
  rw [weekday, Weekday.number_afterMonday hlt]
  omega

/-- The days that have passed since a week began. -/
theorem daysSince_weekday (d : Date) (first : Weekday) :
    (d.weekday.daysSince first : Int) = (d.number + 6 - first.number) % 7 := by
  have hnumber := d.number_weekday
  have hpos := first.one_le_number
  have hle := first.number_le
  simp only [Weekday.daysSince]
  omega

theorem weekday_eq_iff {d e : Date} : d.weekday = e.weekday ↔ d.number % 7 = e.number % 7 := by
  have hd := d.number_weekday
  have he := e.number_weekday
  constructor
  · intro h
    rw [h] at hd
    omega
  · intro h
    apply Weekday.number_injective
    omega

/-- When a month has a day with a number. -/
theorem ofDay?_eq_some_iff {ym : YearMonth} {day : Nat} {d : Date} :
    ofDay? ym day = some d ↔ d.yearMonth = ym ∧ d.day = day := by
  constructor
  · exact yearMonth_day_of_ofDay?
  · rintro ⟨rfl, rfl⟩
    exact ofDay?_yearMonth_day d

theorem ext_yearMonth_day {d e : Date} (hmonth : d.yearMonth = e.yearMonth)
    (hday : d.day = e.day) : d = e := by
  rw [← Option.some.injEq, ← ofDay?_yearMonth_day d, hmonth, hday, ofDay?_yearMonth_day]

/-- A day of a month whose year the calendar has. -/
theorem exists_ofDay? {day : Nat} (ym : YearMonth) (hfirst : -9999 ≤ ym.year)
    (hlast : ym.year ≤ 9999) (hpos : 1 ≤ day) (hle : day ≤ ym.length) :
    ∃ d, ofDay? ym day = some d := by
  obtain ⟨hbegin, hend⟩ := ym.inside_of_year hfirst hlast
  rw [ofDay?, if_pos ⟨hpos, hle⟩, ofNumber?, dif_pos]
  · exact ⟨_, rfl⟩
  · omega

/-- The days of the month of a date. -/
theorem exists_day_in_yearMonth {n : Nat} (d : Date) (hpos : 1 ≤ n)
    (hle : n ≤ d.yearMonth.length) : ∃ e : Date, e.yearMonth = d.yearMonth ∧ e.day = n := by
  obtain ⟨e, he⟩ := exists_ofDay? d.yearMonth d.le_year d.year_le hpos hle
  exact ⟨e, ofDay?_eq_some_iff.mp he⟩

/-- In one month dates differ by as much as their days. -/
theorem number_sub_number {d e : Date} (h : e.yearMonth = d.yearMonth) :
    e.number - d.number = (e.day : Int) - d.day := by
  have hd := d.number_eq
  have he := e.number_eq
  have hdpos := d.one_le_day
  have hepos := e.one_le_day
  rw [h] at he
  omega

end Date

end Civil
end Timetable
