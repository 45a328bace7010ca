import Timetable.Proofs.Cron.Cursor
import Timetable.Proofs.Cron.Fields

/-!
# One step of a search

`Leads` says what one step of a search achieves: it passes over no match, and it lowers the
`allowance`, a number of steps after which a search has ended.  `sound_move` says that every
step is at a match, leads on, or rightly gives up because there is no match left.

A day costs a step, and so does a month; hours, minutes and seconds cost steps only on days
that are accepted, and there a search stays for six steps at most.  So the allowance of any
cursor is below the number of steps that a search may take unless it is told otherwise.
-/

namespace Timetable

open Civil

namespace Cron

variable {e : Cron} {c d next : Cursor}

/-! ## The allowance -/

/-- More than the days from a cursor's to the end of the last year, counting a little more
than twelve months of 33 days. -/
def dateAllowance (c : Cursor) : Nat :=
  400 * (2100 - c.year) + 33 * (12 - c.month) + (33 - c.day)

/-- The steps that a search takes on one day.  A unit in which a field accepts nothing more
costs a step and leads to the beginning of the next one, where every field has a value to go
on to. -/
def timeAllowance (e : Cron) (c : Cursor) : Nat :=
  if !e.hours.contains c.hour then 4
  else if !e.minutes.contains c.minute then
    if (e.minutes.nextFrom? c.minute 59).isNone then 5 else 3
  else if !e.seconds.contains c.second then
    if (e.seconds.nextFrom? c.second 59).isNone then 6 else 2
  else 1

/-- A number of steps after which a search from a cursor has ended. -/
def allowance (e : Cron) (c : Cursor) : Nat :=
  dateAllowance c + if e.acceptsDate c then e.timeAllowance c else 4

theorem timeAllowance_le_two (he : e.Proper) (hhour : e.hours.contains c.hour = true)
    (hminute : e.minutes.contains c.minute = true) (hsecond : c.second = 0) :
    e.timeAllowance c ≤ 2 := by
  obtain ⟨n, hn⟩ := he.seconds.exists_nextFrom?_zero
  simp only [timeAllowance, hhour, hminute, hsecond, hn]
  simp only [Bool.not_true, Bool.false_eq_true, if_false, Option.isNone_some]
  split <;> omega

theorem timeAllowance_le_five (he : e.Proper) (hhour : e.hours.contains c.hour = true)
    (hsecond : c.second = 0) : e.timeAllowance c ≤ 5 := by
  by_cases hminute : e.minutes.contains c.minute = true
  · exact Nat.le_trans (timeAllowance_le_two he hhour hminute hsecond) (by decide)
  · simp only [timeAllowance, hhour, hminute]
    simp only [Bool.not_true, Bool.not_false, Bool.false_eq_true, if_false, if_true]
    split <;> omega

theorem timeAllowance_le_three (he : e.Proper) (hhour : e.hours.contains c.hour = true)
    (hminute : c.minute = 0) (hsecond : c.second = 0) : e.timeAllowance c ≤ 3 := by
  by_cases hcontains : e.minutes.contains c.minute = true
  · exact Nat.le_trans (timeAllowance_le_two he hhour hcontains hsecond) (by decide)
  · obtain ⟨n, hn⟩ := he.minutes.exists_nextFrom?_zero
    rw [Bool.not_eq_true, hminute] at hcontains
    simp [timeAllowance, hhour, hminute, hcontains, hn]

theorem timeAllowance_le_four (he : e.Proper) (hminute : c.minute = 0)
    (hsecond : c.second = 0) : e.timeAllowance c ≤ 4 := by
  by_cases hhour : e.hours.contains c.hour = true
  · exact Nat.le_trans (timeAllowance_le_three he hhour hminute hsecond) (by decide)
  · simp [timeAllowance, hhour]

/-- At the beginning of an hour there is nothing to pay beyond the days and four steps. -/
theorem allowance_le_of_beginning (he : e.Proper) (hminute : c.minute = 0)
    (hsecond : c.second = 0) : e.allowance c ≤ dateAllowance c + 4 := by
  unfold allowance
  split
  · have := timeAllowance_le_four he hminute hsecond
    omega
  · exact Nat.le_refl _

theorem allowance_of_acceptsDate (h : e.acceptsDate c = true) :
    e.allowance c = dateAllowance c + e.timeAllowance c := by
  rw [allowance, if_pos h]

theorem allowance_of_not_acceptsDate (h : e.acceptsDate c = false) :
    e.allowance c = dateAllowance c + 4 := by
  simp [allowance, h]

theorem one_le_timeAllowance (e : Cron) (c : Cursor) : 1 ≤ e.timeAllowance c := by
  unfold timeAllowance
  repeat' split
  all_goals omega

theorem one_le_allowance (e : Cron) (c : Cursor) : 1 ≤ e.allowance c := by
  have := e.one_le_timeAllowance c
  unfold allowance
  split <;> omega

/-- No search takes all the steps that it may take. -/
theorem allowance_le_defaultSteps (hc : c.Fits) : e.allowance c ≤ defaultSteps := by
  have hyear := hc.firstYear_le
  have htime : e.timeAllowance c ≤ 6 := by
    unfold timeAllowance
    repeat' split
    all_goals omega
  unfold allowance dateAllowance defaultSteps
  split <;> omega

/-! ## What accepted cursors have -/

theorem Accepts.year_le (h : e.Accepts d) : d.year ≤ 2099 :=
  (acceptsDate_iff.mp h.date).1

theorem Accepts.year (h : e.Accepts d) : e.years.contains d.year = true :=
  (acceptsDate_iff.mp h.date).2.1

theorem Accepts.month (h : e.Accepts d) : e.months.contains d.month = true :=
  (acceptsDate_iff.mp h.date).2.2.1

theorem acceptsTime_iff :
    e.acceptsTime c = true ↔
      e.hours.contains c.hour = true ∧ e.minutes.contains c.minute = true ∧
        e.seconds.contains c.second = true := by
  simp only [acceptsTime, Bool.and_eq_true, and_assoc]

theorem Accepts.hour (h : e.Accepts d) : e.hours.contains d.hour = true :=
  (acceptsTime_iff.mp h.time).1

theorem Accepts.minute (h : e.Accepts d) : e.minutes.contains d.minute = true :=
  (acceptsTime_iff.mp h.time).2.1

theorem Accepts.second (h : e.Accepts d) : e.seconds.contains d.second = true :=
  (acceptsTime_iff.mp h.time).2.2

/-- Cursors of one day agree on what an expression accepts of it. -/
theorem acceptsDate_congr (hc : c.Fits) (hd : d.Fits) (h : d.dayRank = c.dayRank) :
    e.acceptsDate d = e.acceptsDate c := by
  obtain ⟨-, hone, hmonth, hfirst, hlast, -⟩ := hc
  obtain ⟨-, hone', hmonth', hfirst', hlast', -⟩ := hd
  simp only [Cursor.dayRank] at h
  have hyear : d.year = c.year := by omega
  have hmonth : d.month = c.month := by omega
  have hday : d.day = c.day := by omega
  rw [Bool.eq_iff_iff, acceptsDate_iff, acceptsDate_iff]
  simp only [Cursor.yearMonth, hyear, hmonth, hday]

/-! ## Steps that lead on -/

/-- A step from a cursor to another: later, past no match, and with a lower allowance. -/
structure Leads (e : Cron) (c next : Cursor) : Prop where
  fits : next.Fits
  rank_le : c.rank ≤ next.rank
  rank_le_of_accepts : ∀ d, e.Accepts d → c.rank ≤ d.rank → next.rank ≤ d.rank
  allowance_lt : e.allowance next < e.allowance c

theorem leads_atYear (he : e.Proper) (hc : c.Fits) {year : Nat} (hlt : c.year < year)
    (hle : year ≤ 2100) (hallowance : dateAllowance c + 4 ≤ e.allowance c)
    (hnone : ∀ d, e.Accepts d → c.rank ≤ d.rank → year ≤ d.year) :
    e.Leads c (Cursor.atYear year) := by
  have hbegin := allowance_le_of_beginning (c := Cursor.atYear year) he rfl rfl
  have hclock := Cursor.secondOfDay_lt hc
  obtain ⟨hfirst, hone, hmonth, hday, hday', -⟩ := hc
  constructor
  · constructor <;> simp only [Cursor.atYear] <;> omega
  · simp only [Cursor.rank, Cursor.dayRank, Cursor.atYear] at *
    omega
  · intro d hd hrank
    have hyear := hnone d hd hrank
    have hone := hd.fits.one_le_month
    have hday := hd.fits.one_le_day
    simp only [Cursor.rank, Cursor.dayRank, Cursor.secondOfDay, Cursor.atYear] at *
    omega
  · simp only [dateAllowance, Cursor.atYear] at *
    omega

theorem leads_atMonth (he : e.Proper) (hc : c.Fits) {month : Nat}
    (hlt : c.month < month) (hle : month ≤ 12)
    (hallowance : dateAllowance c + 4 ≤ e.allowance c)
    (hnone : ∀ d, e.Accepts d → c.rank ≤ d.rank → d.year = c.year → month ≤ d.month) :
    e.Leads c (c.atMonth month) := by
  have hbegin := allowance_le_of_beginning (c := c.atMonth month) he rfl rfl
  have hclock := Cursor.secondOfDay_lt hc
  obtain ⟨hfirst, hone, hmonth, hday, hday', -⟩ := hc
  constructor
  · constructor <;> simp only [Cursor.atMonth] <;> omega
  · simp only [Cursor.rank, Cursor.dayRank, Cursor.atMonth] at *
    omega
  · intro d hd hrank
    have hmonth := hnone d hd hrank
    have hclock := Cursor.secondOfDay_lt hd.fits
    have hone := hd.fits.one_le_month
    have hmonth' := hd.fits.month_le
    have hday := hd.fits.one_le_day
    have hday' := hd.fits.day_le
    simp only [Cursor.rank, Cursor.dayRank] at hrank
    have hyears : c.year ≤ d.year := by omega
    -- A match in a later year is ahead of every month of this one.
    rcases Nat.lt_or_eq_of_le hyears with hless | heq
    · simp only [Cursor.rank, Cursor.dayRank, Cursor.secondOfDay, Cursor.atMonth]
      omega
    · have hmonth := hmonth heq.symm
      simp only [Cursor.rank, Cursor.dayRank, Cursor.secondOfDay, Cursor.atMonth]
      omega
  · simp only [dateAllowance, Cursor.atMonth] at *
    omega

theorem leads_nextMonth (he : e.Proper) (hc : c.Fits) (hyear : c.year ≤ 2099)
    (hallowance : dateAllowance c + 4 ≤ e.allowance c)
    (hnone : ∀ d, e.Accepts d → c.rank ≤ d.rank → d.year = c.year → c.month < d.month) :
    e.Leads c c.nextMonth := by
  unfold Cursor.nextMonth
  split
  next hlast =>
    apply leads_atYear he hc (by omega) (by omega) hallowance
    intro d hd hrank
    have hless := hnone d hd hrank
    have hmonth := hd.fits.month_le
    have hday := hc.day_le
    have hday' := hd.fits.one_le_day
    have hclock := Cursor.secondOfDay_lt hd.fits
    have hday' := hd.fits.day_le
    simp only [Cursor.rank, Cursor.dayRank] at hrank
    omega
  next hlast =>
    exact leads_atMonth he hc (by omega) (by omega) hallowance hnone

theorem leads_nextDay (he : e.Proper) (hc : c.Fits) (hday : c.day ≤ 31)
    (hallowance : dateAllowance c + 4 ≤ e.allowance c)
    (hnone : ∀ d, e.Accepts d → c.rank ≤ d.rank → d.dayRank ≠ c.dayRank) :
    e.Leads c c.nextDay := by
  have hbegin := allowance_le_of_beginning (c := c.nextDay) he rfl rfl
  have hclock := Cursor.secondOfDay_lt hc
  have hrank : c.nextDay.rank = 86400 * (c.dayRank + 1) := by
    simp only [Cursor.rank, Cursor.dayRank, Cursor.secondOfDay, Cursor.nextDay]
    omega
  obtain ⟨hfirst, hone, hmonth, hday, hday', -⟩ := hc
  constructor
  · constructor <;> simp only [Cursor.nextDay] <;> omega
  · rw [hrank, Cursor.rank]
    omega
  · intro d hd hle
    have hday := hnone d hd hle
    have hclock := Cursor.secondOfDay_lt hd.fits
    rw [hrank, Cursor.rank]
    simp only [Cursor.rank] at hle
    omega
  · simp only [dateAllowance, Cursor.nextDay] at *
    omega

/-- A step that stays on its day. -/
theorem leads_of_dayRank_eq (hc : c.Fits) (hnext : next.Fits)
    (hdate : e.acceptsDate c = true) (hsame : next.dayRank = c.dayRank)
    (hallowance : e.timeAllowance next < e.timeAllowance c)
    (hle : c.secondOfDay ≤ next.secondOfDay)
    (hnone : ∀ d, e.Accepts d → d.dayRank = c.dayRank → c.secondOfDay ≤ d.secondOfDay →
      next.secondOfDay ≤ d.secondOfDay) :
    e.Leads c next := by
  have hclock := Cursor.secondOfDay_lt hc
  have hclock' := Cursor.secondOfDay_lt hnext
  constructor
  · exact hnext
  · rw [Cursor.rank, Cursor.rank]
    omega
  · intro d hd hrank
    have hclock'' := Cursor.secondOfDay_lt hd.fits
    have hday := hnone d hd
    simp only [Cursor.rank] at hrank ⊢
    omega
  · have hdays : dateAllowance next = dateAllowance c := by
      obtain ⟨-, hone, hmonth, hfirst, hlast, -⟩ := hc
      obtain ⟨-, hone', hmonth', hfirst', hlast', -⟩ := hnext
      simp only [Cursor.dayRank] at hsame
      simp only [dateAllowance]
      omega
    have hdate' := hdate
    rw [← acceptsDate_congr hc hnext hsame] at hdate'
    rw [allowance_of_acceptsDate hdate, allowance_of_acceptsDate hdate', hdays]
    omega

theorem leads_atHour (hc : c.Fits) (hdate : e.acceptsDate c = true) {hour : Nat}
    (hlt : c.hour < hour) (hle : hour ≤ 23)
    (hallowance : e.timeAllowance (c.atHour hour) < e.timeAllowance c)
    (hnone : ∀ d, e.Accepts d → d.dayRank = c.dayRank → c.secondOfDay ≤ d.secondOfDay →
      hour ≤ d.hour) :
    e.Leads c (c.atHour hour) := by
  have hminute := hc.minute_le
  have hsecond := hc.second_le
  have hfits : (c.atHour hour).Fits :=
    { hc with hour_le := hle, minute_le := Nat.zero_le 59, second_le := Nat.zero_le 59 }
  apply leads_of_dayRank_eq hc hfits hdate rfl hallowance
  · simp only [Cursor.secondOfDay, Cursor.atHour]
    omega
  · intro d hd hday hclock
    have hhour := hnone d hd hday hclock
    simp only [Cursor.secondOfDay, Cursor.atHour]
    omega

/-- Where an hour has no match left, the next one is begun. -/
theorem leads_nextHour (he : e.Proper) (hc : c.Fits) (hdate : e.acceptsDate c = true)
    (hallowance : 5 ≤ e.timeAllowance c)
    (hnone : ∀ d, e.Accepts d → d.dayRank = c.dayRank → c.secondOfDay ≤ d.secondOfDay →
      d.hour ≠ c.hour) :
    e.Leads c c.nextHour := by
  have hhour := hc.hour_le
  have hlater (d : Cursor) (hd : e.Accepts d) (hday : d.dayRank = c.dayRank)
      (hclock : c.secondOfDay ≤ d.secondOfDay) : c.hour + 1 ≤ d.hour := by
    have hother := hnone d hd hday hclock
    have hminute := hd.fits.minute_le
    have hsecond := hd.fits.second_le
    simp only [Cursor.secondOfDay] at hclock
    omega
  unfold Cursor.nextHour
  split
  -- The last hour of a day is left for the next day.
  next hlast =>
    have hday := (acceptsDate_iff.mp hdate).2.2.2.1
    have hlength := c.yearMonth.length_le
    have htotal := allowance_of_acceptsDate hdate
    apply leads_nextDay he hc (by omega) (by omega)
    intro d hd hrank hday
    have hhour' := hd.fits.hour_le
    simp only [Cursor.rank] at hrank
    have hhour := hlater d hd hday (by omega)
    omega
  next hlast =>
    have hbegin := timeAllowance_le_four (c := c.atHour (c.hour + 1)) he rfl rfl
    exact leads_atHour hc hdate (by omega) (by omega) (by omega) hlater

theorem leads_atMinute (hc : c.Fits) (hdate : e.acceptsDate c = true) {minute : Nat}
    (hlt : c.minute < minute) (hle : minute ≤ 59)
    (hallowance : e.timeAllowance (c.atMinute minute) < e.timeAllowance c)
    (hnone : ∀ d, e.Accepts d → d.dayRank = c.dayRank → c.secondOfDay ≤ d.secondOfDay →
      d.hour = c.hour → minute ≤ d.minute) :
    e.Leads c (c.atMinute minute) := by
  have hsecond := hc.second_le
  have hfits : (c.atMinute minute).Fits :=
    { hc with minute_le := hle, second_le := Nat.zero_le 59 }
  apply leads_of_dayRank_eq hc hfits hdate rfl hallowance
  · simp only [Cursor.secondOfDay, Cursor.atMinute]
    omega
  · intro d hd hday hclock
    have hminute := hnone d hd hday hclock
    have hminute' := hd.fits.minute_le
    have hsecond' := hd.fits.second_le
    simp only [Cursor.secondOfDay, Cursor.atMinute] at hclock ⊢
    omega

/-- Where a minute has no match left, the next one is begun. -/
theorem leads_nextMinute (he : e.Proper) (hc : c.Fits) (hdate : e.acceptsDate c = true)
    (hhour : e.hours.contains c.hour = true) (hallowance : 6 ≤ e.timeAllowance c)
    (hnone : ∀ d, e.Accepts d → d.dayRank = c.dayRank → c.secondOfDay ≤ d.secondOfDay →
      d.hour = c.hour → d.minute ≠ c.minute) :
    e.Leads c c.nextMinute := by
  have hminute := hc.minute_le
  have hlater (d : Cursor) (hd : e.Accepts d) (hday : d.dayRank = c.dayRank)
      (hclock : c.secondOfDay ≤ d.secondOfDay) (hsame : d.hour = c.hour) :
      c.minute + 1 ≤ d.minute := by
    have hother := hnone d hd hday hclock hsame
    have hsecond := hd.fits.second_le
    simp only [Cursor.secondOfDay] at hclock
    omega
  unfold Cursor.nextMinute
  split
  next hlast =>
    apply leads_nextHour he hc hdate (by omega)
    intro d hd hday hclock hsame
    have hminute' := hd.fits.minute_le
    have hlater := hlater d hd hday hclock hsame
    omega
  next hlast =>
    have hbegin := timeAllowance_le_five (c := c.atMinute (c.minute + 1)) he hhour rfl
    exact leads_atMinute hc hdate (by omega) (by omega) (by omega) hlater

theorem leads_atSecond (hc : c.Fits) (hdate : e.acceptsDate c = true) {second : Nat}
    (hlt : c.second < second) (hle : second ≤ 59)
    (hallowance : e.timeAllowance (c.atSecond second) < e.timeAllowance c)
    (hnone : ∀ d, e.Accepts d → d.dayRank = c.dayRank → c.secondOfDay ≤ d.secondOfDay →
      d.hour = c.hour → d.minute = c.minute → second ≤ d.second) :
    e.Leads c (c.atSecond second) := by
  have hfits : (c.atSecond second).Fits := { hc with second_le := hle }
  have hminute := hc.minute_le
  apply leads_of_dayRank_eq hc hfits hdate rfl hallowance
  · simp only [Cursor.secondOfDay, Cursor.atSecond]
    omega
  · intro d hd hday hclock
    have hsecond := hnone d hd hday hclock
    have hminute' := hd.fits.minute_le
    have hsecond' := hd.fits.second_le
    simp only [Cursor.secondOfDay, Cursor.atSecond] at hclock ⊢
    omega

/-! ## One step -/

/-- Cursors are ordered by year, then by month, then by day. -/
theorem Cursor.rank_le_cases (hc : c.Fits) (hd : d.Fits) (h : c.rank ≤ d.rank) :
    c.year < d.year ∨ c.year = d.year ∧ (c.month < d.month ∨
      c.month = d.month ∧ c.day ≤ d.day) := by
  have hclock := secondOfDay_lt hd
  have hmonth := hc.month_le
  have hday := hc.day_le
  have hone' := hd.one_le_month
  have hmonth' := hd.month_le
  have hfirst' := hd.one_le_day
  have hday' := hd.day_le
  simp only [rank, dayRank] at h
  omega

/-- Times of day are ordered by hour, then by minute, then by second. -/
theorem Cursor.secondOfDay_le_cases (hc : c.Fits) (hd : d.Fits)
    (h : c.secondOfDay ≤ d.secondOfDay) :
    c.hour < d.hour ∨ c.hour = d.hour ∧ (c.minute < d.minute ∨
      c.minute = d.minute ∧ c.second ≤ d.second) := by
  have hminute := hc.minute_le
  have hsecond := hc.second_le
  have hminute' := hd.minute_le
  have hsecond' := hd.second_le
  simp only [Cursor.secondOfDay] at h
  omega

/-- What a step of a search promises: it is at a match, or leads on, or there is no match
left. -/
def Move.Sound (e : Cron) (c : Cursor) : Move → Prop
  | .found => e.Accepts c
  | .goOn next => e.Leads c next
  | .exhausted => ∀ d, e.Accepts d → ¬ c.rank ≤ d.rank

section MoveInDay

variable (he : e.Proper) (hc : c.Fits) (hdate : e.acceptsDate c = true)

include he hc hdate

/-- The step at an hour and a minute that are accepted. -/
private theorem sound_moveInDay_of_minute (hhours : e.hours.nextFrom? c.hour 23 = some c.hour)
    (hhour : e.hours.contains c.hour = true)
    (hminutes : e.minutes.nextFrom? c.minute 59 = some c.minute)
    (hminute : e.minutes.contains c.minute = true) : (e.moveInDay c).Sound e c := by
  simp only [moveInDay, hhours, hminutes, ne_eq, not_true, if_false]
  rcases Field.nextFrom?_cases he.seconds.ascends hc.second_le with
    ⟨hseconds, hrefused⟩ | ⟨second, hseconds, hlt, hle, hcontains, hrefused, hleast⟩ |
      ⟨hseconds, hsecond⟩
  · -- The minute has no second left.
    have hself := hrefused c.second (Nat.le_refl _) hc.second_le
    have htime : e.timeAllowance c = 6 := by
      simp [timeAllowance, hhour, hminute, hself, hseconds]
    simp only [hseconds]
    apply leads_nextMinute he hc hdate hhour (by omega)
    intro d hd _ hclock hsameHour hsameMinute
    have hcases := Cursor.secondOfDay_le_cases hc hd.fits hclock
    have hnone := hrefused d.second (by omega) hd.fits.second_le
    simp [hd.second] at hnone
  · -- A later second of the minute is the next one to come.
    have htime : e.timeAllowance c = 2 := by
      simp [timeAllowance, hhour, hminute, hrefused, hseconds]
    have hbegin : e.timeAllowance (c.atSecond second) = 1 := by
      simp [timeAllowance, Cursor.atSecond, hhour, hminute, hcontains]
    have hne : second ≠ c.second := by omega
    simp only [hseconds, if_pos hne]
    apply leads_atSecond hc hdate hlt hle (by omega)
    intro d hd _ hclock hsameHour hsameMinute
    have hcases := Cursor.secondOfDay_le_cases hc hd.fits hclock
    exact hleast d.second (by omega) hd.fits.second_le hd.second
  · simp only [hseconds, not_true, if_false]
    exact ⟨hc, hdate, acceptsTime_iff.mpr ⟨hhour, hminute, hsecond⟩⟩

/-- The step at an hour that is accepted. -/
private theorem sound_moveInDay_of_hour (hhours : e.hours.nextFrom? c.hour 23 = some c.hour)
    (hhour : e.hours.contains c.hour = true) : (e.moveInDay c).Sound e c := by
  rcases Field.nextFrom?_cases he.minutes.ascends hc.minute_le with
    ⟨hminutes, hrefused⟩ | ⟨minute, hminutes, hlt, hle, hcontains, hrefused, hleast⟩ |
      ⟨hminutes, hminute⟩
  · -- The hour has no minute left.
    have hself := hrefused c.minute (Nat.le_refl _) hc.minute_le
    have htime : e.timeAllowance c = 5 := by
      simp [timeAllowance, hhour, hself, hminutes]
    simp only [moveInDay, hhours, hminutes, ne_eq, not_true, if_false]
    apply leads_nextHour he hc hdate (by omega)
    intro d hd _ hclock hsameHour
    have hcases := Cursor.secondOfDay_le_cases hc hd.fits hclock
    have hnone := hrefused d.minute (by omega) hd.fits.minute_le
    simp [hd.minute] at hnone
  · -- A later minute of the hour is the next one to come.
    have htime : e.timeAllowance c = 3 := by
      simp [timeAllowance, hhour, hrefused, hminutes]
    have hbegin := timeAllowance_le_two (c := c.atMinute minute) he hhour hcontains rfl
    have hne : minute ≠ c.minute := by omega
    simp only [moveInDay, hhours, hminutes, ne_eq, not_true, if_false, if_pos hne]
    apply leads_atMinute hc hdate hlt hle (by omega)
    intro d hd _ hclock hsameHour
    have hcases := Cursor.secondOfDay_le_cases hc hd.fits hclock
    exact hleast d.minute (by omega) hd.fits.minute_le hd.minute
  · exact sound_moveInDay_of_minute he hc hdate hhours hhour hminutes hminute

/-- The step on a day that is accepted. -/
theorem sound_moveInDay : (e.moveInDay c).Sound e c := by
  rcases Field.nextFrom?_cases he.hours.ascends hc.hour_le with
    ⟨hhours, hrefused⟩ | ⟨hour, hhours, hlt, hle, hcontains, hrefused, hleast⟩ |
      ⟨hhours, hhour⟩
  · -- The day has no hour left.
    have hself := hrefused c.hour (Nat.le_refl _) hc.hour_le
    have htime : e.timeAllowance c = 4 := by simp [timeAllowance, hself]
    have htotal := allowance_of_acceptsDate hdate
    have hday := (acceptsDate_iff.mp hdate).2.2.2.1
    have hlength := c.yearMonth.length_le
    simp only [moveInDay, hhours]
    apply leads_nextDay he hc (by omega) (by omega)
    intro d hd hrank hsame
    simp only [Cursor.rank] at hrank
    have hcases := Cursor.secondOfDay_le_cases hc hd.fits (by omega)
    have hnone := hrefused d.hour (by omega) hd.fits.hour_le
    simp [hd.hour] at hnone
  · -- A later hour of the day is the next one to come.
    have htime : e.timeAllowance c = 4 := by simp [timeAllowance, hrefused]
    have hbegin := timeAllowance_le_three (c := c.atHour hour) he hcontains rfl rfl
    have hne : hour ≠ c.hour := by omega
    simp only [moveInDay, hhours, if_pos hne]
    apply leads_atHour hc hdate hlt hle (by omega)
    intro d hd _ hclock
    have hcases := Cursor.secondOfDay_le_cases hc hd.fits hclock
    exact hleast d.hour (by omega) hd.fits.hour_le hd.hour
  · exact sound_moveInDay_of_hour he hc hdate hhours hhour

end MoveInDay

/-- The step in a year that is accepted. -/
private theorem sound_move_of_year (he : e.Proper) (hc : c.Fits) (hyear : c.year ≤ lastYear)
    (hyears : e.years.nextFrom? c.year lastYear = some c.year)
    (hcontains : e.years.contains c.year = true) : (e.move c).Sound e c := by
  have hlast : c.year ≤ 2099 := hyear
  simp only [move, if_neg (Nat.not_lt.mpr hyear), hyears, ne_eq, not_true, if_false]
  have hcases (d : Cursor) (hd : e.Accepts d) (h : c.rank ≤ d.rank) :=
    Cursor.rank_le_cases hc hd.fits h
  have hrefuses (h : e.acceptsDate c = false) : dateAllowance c + 4 ≤ e.allowance c :=
    Nat.le_of_eq (allowance_of_not_acceptsDate h).symm
  rcases Field.nextFrom?_cases he.months.ascends hc.month_le with
    ⟨hmonths, hrefused⟩ | ⟨month, hmonths, hlt, hle, -, hrefused, hleast⟩ | ⟨hmonths, hmonth⟩
  · -- The year has no month left.
    have hself := hrefused c.month (Nat.le_refl _) hc.month_le
    simp only [hmonths]
    apply leads_atYear he hc (Nat.lt_succ_self _) (by omega)
      (hrefuses (by simp [acceptsDate, hself]))
    intro d hd hrank
    have hcases := hcases d hd hrank
    by_contra hsame
    have hnone := hrefused d.month (by omega) hd.fits.month_le
    simp [hd.month] at hnone
  · -- A later month of the year is the next one to come.
    have hne : month ≠ c.month := by omega
    simp only [hmonths, if_pos hne]
    apply leads_atMonth he hc hlt hle (hrefuses (by simp [acceptsDate, hrefused]))
    intro d hd hrank hsame
    have hcases := hcases d hd hrank
    exact hleast d.month (by omega) hd.fits.month_le hd.month
  · simp only [hmonths, not_true, if_false]
    split
    next hlong =>
      -- The month does not have the cursor's day.
      have hshort : ¬ c.day ≤ c.yearMonth.length := by omega
      apply leads_nextMonth he hc hlast (hrefuses (by simp [acceptsDate, hshort]))
      intro d hd hrank hsame
      have hcases := hcases d hd hrank
      have hday := (acceptsDate_iff.mp hd.date).2.2.2.1
      by_contra hmonth
      have hsameMonth : d.month = c.month := by omega
      simp only [Cursor.yearMonth, hsame, hsameMonth] at hday hlong
      omega
    next hlong =>
      have hday := Nat.not_lt.mp hlong
      have hlength := c.yearMonth.length_le
      by_cases haccepts : e.acceptsDay c.yearMonth c.day = true
      · simp only [haccepts, Bool.not_true, Bool.false_eq_true, if_false]
        exact sound_moveInDay he hc
          (acceptsDate_iff.mpr ⟨hlast, hcontains, hmonth, hday, haccepts⟩)
      · -- The day is refused, and with it every time of the day.
        have hdate : e.acceptsDate c = false := by simp [acceptsDate, haccepts]
        simp only [haccepts, Bool.not_false, if_true]
        apply leads_nextDay he hc (by omega) (hrefuses hdate)
        intro d hd _ hsame
        have hother := hd.date
        rw [acceptsDate_congr hc hd.fits hsame, hdate] at hother
        simp at hother

/-- A step finds a match, leads on, or rightly gives up. -/
theorem sound_move (he : e.Proper) (hc : c.Fits) : (e.move c).Sound e c := by
  have hcases (d : Cursor) (hd : e.Accepts d) (h : c.rank ≤ d.rank) :=
    Cursor.rank_le_cases hc hd.fits h
  by_cases hyear : c.year ≤ lastYear
  · rcases Field.nextFrom?_cases he.years.ascends hyear with
      ⟨hyears, hrefused⟩ | ⟨year, hyears, hlt, hle, -, hrefused, hleast⟩ | ⟨hyears, hcontains⟩
    · -- No year is left.
      simp only [move, if_neg (Nat.not_lt.mpr hyear), hyears]
      intro d hd hrank
      have hcases := hcases d hd hrank
      have hnone := hrefused d.year (by omega) hd.year_le
      simp [hd.year] at hnone
    · -- A later year is the next one to come.
      have hdate : e.acceptsDate c = false := by simp [acceptsDate, hrefused]
      have hallowance := allowance_of_not_acceptsDate hdate
      have hle : year ≤ 2099 := hle
      have hne : year ≠ c.year := by omega
      simp only [move, if_neg (Nat.not_lt.mpr hyear), hyears, if_pos hne]
      apply leads_atYear he hc hlt (by omega) (by omega)
      intro d hd hrank
      have hcases := hcases d hd hrank
      exact hleast d.year (by omega) hd.year_le hd.year
    · exact sound_move_of_year he hc hyear hyears hcontains
  · -- No cursor at a match is past the last year.
    have hpast : 2099 < c.year := Nat.not_le.mp hyear
    simp only [move, if_pos (Nat.not_le.mp hyear)]
    intro d hd hrank
    have hlast := hd.year_le
    have hcases := hcases d hd hrank
    omega

end Cron
end Timetable
