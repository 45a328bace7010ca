import Timetable.Cron.Search
import Timetable.Proofs.Civil.Calendar
import Timetable.Proofs.Civil.Order

/-!
# Where a search is

`Cursor.rank` numbers the positions of cursors so that their order is the order of time:
`rank_ofSecond_lt_iff`.  A day that its month does not have gets a number too, after the
month's days.

`Accepts` says of a cursor what `isMatch` says of a datetime, and a cursor that is accepted
stands for a datetime: `isMatch_iff_accepts` and `exists_dateTime?_of_accepts`.
-/

namespace Timetable

open Civil

namespace Cron
namespace Cursor

/-- The number of a cursor's day. -/
def dayRank (c : Cursor) : Nat :=
  33 * (13 * c.year + c.month) + c.day

/-- The second of the day. -/
def secondOfDay (c : Cursor) : Nat :=
  3600 * c.hour + 60 * c.minute + c.second

/-- The number of a cursor's second. -/
def rank (c : Cursor) : Nat :=
  86400 * c.dayRank + c.secondOfDay

/-- The components are in their ranges, only the day may be one too great for its month. -/
structure Fits (c : Cursor) : Prop where
  firstYear_le : 1970 ≤ c.year
  one_le_month : 1 ≤ c.month
  month_le : c.month ≤ 12
  one_le_day : 1 ≤ c.day
  day_le : c.day ≤ 32
  hour_le : c.hour ≤ 23
  minute_le : c.minute ≤ 59
  second_le : c.second ≤ 59

/-- The second in which a datetime lies. -/
def ofSecond (t : DateTime) : Cursor :=
  ⟨t.date.year.toNat, t.date.month.number, t.date.day, t.time.hour, t.time.minute,
    t.time.second⟩

variable {c d : Cursor} {t u : DateTime}

theorem secondOfDay_lt (hc : c.Fits) : c.secondOfDay < 86400 := by
  have hhour := hc.hour_le
  have hminute := hc.minute_le
  have hsecond := hc.second_le
  simp only [secondOfDay]
  omega

@[simp] theorem secondOfDay_ofSecond (t : DateTime) :
    (ofSecond t).secondOfDay = t.time.secondOfDay :=
  t.time.secondOfDay_eq.symm

theorem fits_ofSecond (h : 1970 ≤ t.date.year) : (ofSecond t).Fits := by
  have hday := t.date.day_le_length
  have hlength := t.date.yearMonth.length_le
  exact
    { firstYear_le := by simp only [ofSecond]; omega
      one_le_month := t.date.month.one_le_number
      month_le := t.date.month.number_le
      one_le_day := t.date.one_le_day
      day_le := by simp only [ofSecond]; omega
      hour_le := Nat.le_of_lt_succ t.time.hour_lt
      minute_le := Nat.le_of_lt_succ t.time.minute_lt
      second_le := Nat.le_of_lt_succ t.time.second_lt }

/-- Days are numbered in the order of time. -/
theorem dayRank_ofSecond_lt_iff (ht : 1970 ≤ t.date.year) (hu : 1970 ≤ u.date.year) :
    (ofSecond t).dayRank < (ofSecond u).dayRank ↔ t.date.number < u.date.number := by
  have hfits := fits_ofSecond ht
  have hfits' := fits_ofSecond hu
  have hmonth := hfits.month_le
  have hmonth' := hfits'.month_le
  have hday := hfits.day_le
  have hday' := hfits'.day_le
  have hone := hfits.one_le_month
  have hone' := hfits'.one_le_month
  have hfirst := hfits.one_le_day
  have hfirst' := hfits'.one_le_day
  rw [Date.number_lt_iff]
  simp only [ofSecond, dayRank] at *
  omega

/-- Seconds are numbered in the order of time. -/
theorem rank_ofSecond_lt_iff (ht : 1970 ≤ t.date.year) (hu : 1970 ≤ u.date.year) :
    (ofSecond t).rank < (ofSecond u).rank ↔ t.wholeSeconds < u.wholeSeconds := by
  have hlt := t.time.secondOfDay_lt
  have hlt' := u.time.secondOfDay_lt
  have hdays := dayRank_ofSecond_lt_iff ht hu
  have hdays' := dayRank_ofSecond_lt_iff hu ht
  simp only [rank, secondOfDay_ofSecond, DateTime.wholeSeconds]
  rcases Int.lt_trichotomy t.date.number u.date.number with h | h | h
  · have := hdays.mpr h
    omega
  · -- On one date the seconds of the day decide.
    have := mt hdays.mp (by omega)
    have := mt hdays'.mp (by omega)
    omega
  · have := hdays'.mpr h
    omega

/-! ## The first cursor of a search -/

theorem rank_nextSecond (hc : c.Fits) : c.nextSecond.rank = c.rank + 1 := by
  have hhour := hc.hour_le
  have hminute := hc.minute_le
  have hsecond := hc.second_le
  unfold nextSecond nextMinute nextHour
  split
  · split
    · split
      · simp only [rank, dayRank, secondOfDay, nextDay]
        omega
      · simp only [rank, dayRank, secondOfDay, atHour]
        omega
    · simp only [rank, dayRank, secondOfDay, atMinute]
      omega
  · simp only [rank, dayRank, secondOfDay, atSecond]
    omega

theorem fits_nextSecond (hc : c.Fits) (hday : c.day ≤ 31) : c.nextSecond.Fits := by
  obtain ⟨hyear, hone, hmonth, hfirst, -, hhour, hminute, hsecond⟩ := hc
  unfold nextSecond nextMinute nextHour
  split
  · split
    · split <;> constructor <;> simp only [nextDay, atHour] <;> omega
    · constructor <;> simp only [atMinute] <;> omega
  · constructor <;> simp only [atSecond] <;> omega

theorem fits_ofDateTime (start : DateTime) : (ofDateTime start).Fits := by
  unfold ofDateTime
  split
  next => constructor <;> simp [atYear, firstYear]
  next hyear =>
    have hfits := fits_ofSecond (t := start) (Int.not_lt.mp hyear)
    have hday := start.date.day_le_length
    have hlength := start.date.yearMonth.length_le
    dsimp only
    split
    · exact hfits
    · exact fits_nextSecond hfits (Nat.le_trans hday hlength)

/-- The whole seconds from a datetime on are those from the first cursor on. -/
theorem rank_ofDateTime_le_iff {start : DateTime} (hyear : 1970 ≤ t.date.year)
    (hwhole : t.time.nanosecond = 0) :
    (ofDateTime start).rank ≤ (ofSecond t).rank ↔ start ≤ t := by
  have hnano := start.time.nanosecond_lt
  unfold ofDateTime
  split
  next hbefore =>
    have hfits := fits_ofSecond hyear
    have hfirst := hfits.firstYear_le
    have hone := hfits.one_le_month
    have hday := hfits.one_le_day
    simp only [firstYear] at hbefore
    -- The search begins with 1970, and `t` lies there or later.
    apply iff_of_true
    · simp only [rank, dayRank, secondOfDay, atYear, firstYear]
      omega
    · apply le_of_lt
      exact .inl (Date.number_lt_iff.mpr (.inl (by omega)))
  next hafter =>
    have hafter := Int.not_lt.mp hafter
    have hbefore := rank_ofSecond_lt_iff hyear hafter
    have hrank := rank_nextSecond (fits_ofSecond hafter)
    have hlater := rank_ofSecond_lt_iff hafter hyear
    rw [DateTime.le_iff_instant_le]
    simp only [DateTime.instant, hwhole]
    simp only [DateTime.wholeSeconds] at hbefore hlater
    -- A start inside a second leaves that second out.
    split
    next hzero =>
      show (ofSecond start).rank ≤ _ ↔ _
      omega
    next hpos =>
      show (ofSecond start).nextSecond.rank ≤ _ ↔ _
      omega

end Cursor

/-! ## Accepted cursors -/

/-- Whether a cursor's date is one that an expression accepts. -/
def acceptsDate (e : Cron) (c : Cursor) : Bool :=
  c.year ≤ lastYear && e.years.contains c.year && e.months.contains c.month &&
    c.day ≤ c.yearMonth.length && e.acceptsDay c.yearMonth c.day

/-- Whether a cursor's time of day is one that an expression accepts. -/
def acceptsTime (e : Cron) (c : Cursor) : Bool :=
  e.hours.contains c.hour && e.minutes.contains c.minute && e.seconds.contains c.second

/-- A cursor at a match. -/
structure Accepts (e : Cron) (c : Cursor) : Prop where
  fits : c.Fits
  date : e.acceptsDate c = true
  time : e.acceptsTime c = true

variable {e : Cron} {c : Cursor} {t : DateTime}

theorem yearMonth_ofSecond (h : 1970 ≤ t.date.year) :
    (Cursor.ofSecond t).yearMonth = t.date.yearMonth := by
  have hyear : ((t.date.year.toNat : Nat) : Int) = t.date.year := by omega
  simp only [Cursor.yearMonth, Cursor.ofSecond, hyear, Month.afterJanuary_number_sub_one]
  rfl

theorem year_le_of_isMatch (h : e.isMatch t = true) :
    1970 ≤ t.date.year ∧ t.date.year ≤ 2099 := by
  simp only [isMatch, Bool.and_eq_true, decide_eq_true_eq] at h
  exact h.1.1.1.1.1.1

theorem isMatch_iff_accepts (h : 1970 ≤ t.date.year) :
    e.isMatch t = true ↔ e.Accepts (Cursor.ofSecond t) := by
  have hmonth := yearMonth_ofSecond h
  have hday := t.date.day_le_length
  have hfirst : (firstYear : Int) ≤ t.date.year := h
  have hlast : (Cursor.ofSecond t).year ≤ lastYear ↔ t.date.year ≤ lastYear := by
    simp only [Cursor.ofSecond, lastYear]
    omega
  have hsame : e.isMatch t = true ↔
      e.acceptsDate (Cursor.ofSecond t) = true ∧ e.acceptsTime (Cursor.ofSecond t) = true := by
    simp only [isMatch, acceptsDate, acceptsTime, Bool.and_eq_true, decide_eq_true_eq, hmonth,
      hlast]
    simp only [Cursor.ofSecond, hfirst, hday, true_and, and_true, and_assoc]
  rw [hsame]
  constructor
  · rintro ⟨hdate, htime⟩
    exact ⟨Cursor.fits_ofSecond h, hdate, htime⟩
  · rintro ⟨-, hdate, htime⟩
    exact ⟨hdate, htime⟩

theorem acceptsDate_iff :
    e.acceptsDate c = true ↔
      c.year ≤ 2099 ∧ e.years.contains c.year = true ∧ e.months.contains c.month = true ∧
        c.day ≤ c.yearMonth.length ∧ e.acceptsDay c.yearMonth c.day = true := by
  simp only [acceptsDate, Bool.and_eq_true, decide_eq_true_eq, and_assoc]
  exact Iff.rfl

/-- A search that has come to a match gives the whole second at which it is. -/
theorem exists_dateTime?_of_accepts (h : e.Accepts c) :
    ∃ t, c.dateTime? = some t ∧ Cursor.ofSecond t = c ∧ t.time.nanosecond = 0 ∧
      1970 ≤ t.date.year := by
  obtain ⟨hfits, hdate, -⟩ := h
  obtain ⟨hlast, -, -, hday, -⟩ := acceptsDate_iff.mp hdate
  have hfirst := hfits.firstYear_le
  have hone := hfits.one_le_month
  have hmonth := hfits.month_le
  have hyear : -9999 ≤ c.yearMonth.year ∧ c.yearMonth.year ≤ 9999 := by
    simp only [Cursor.yearMonth]
    omega
  obtain ⟨date, hof⟩ := Date.exists_ofDay? _ hyear.1 hyear.2 hfits.one_le_day hday
  obtain ⟨hdateMonth, hdateDay⟩ := Date.ofDay?_eq_some_iff.mp hof
  have hhour := Nat.lt_succ_of_le hfits.hour_le
  have hminute := Nat.lt_succ_of_le hfits.minute_le
  have hsecond := Nat.lt_succ_of_le hfits.second_le
  obtain ⟨time, htime⟩ : ∃ time, Time.ofClock? c.hour c.minute c.second 0 = some time := by
    rw [Time.ofClock?, dif_pos ⟨hhour, hminute, hsecond, by decide⟩]
    exact ⟨_, rfl⟩
  obtain ⟨htimeHour, htimeMinute, htimeSecond, htimeNano⟩ := Time.ofClock?_eq_some_iff.mp htime
  have hdateYear : date.year = c.year := congrArg YearMonth.year hdateMonth
  have hnumber : date.month.number = c.month := by
    rw [Date.month, hdateMonth, Cursor.yearMonth, Month.number_afterJanuary _ (by omega)]
    omega
  refine ⟨⟨date, time⟩, ?_, ?_, htimeNano, by dsimp only; omega⟩
  · have hread : Month.ofNumber? c.month = some c.yearMonth.month := by
      rw [Month.ofNumber?, if_pos ⟨hone, hmonth⟩]
      rfl
    -- A cursor's second is at most 59, so the reading of 60 as 59 does not apply.
    have hsixty : (if c.second = 60 then 59 else c.second) = c.second :=
      if_neg (by omega)
    rw [Cursor.dateTime?, DateTime.ofReading?, hread, hsixty, htime]
    show (Date.ofDay? c.yearMonth c.day).bind _ = _
    rw [hof]
    rfl
  · simp only [Cursor.ofSecond, hdateYear, hnumber, hdateDay, htimeHour, htimeMinute,
      htimeSecond, Int.toNat_natCast]

end Cron
end Timetable
