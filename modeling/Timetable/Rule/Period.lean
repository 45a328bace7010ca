import Timetable.Rule.Clock
import Timetable.Rule.Selection

/-!
# The periods of a rule

A rule followed from a start runs through numbered periods: ticks of a frequency finer than
a day, days, weeks, months or years, an interval apart.  `Rule.period?` evaluates one of
them.  Its result is `none` once the period lies outside the calendar.

A period also names the next one worth evaluating.  Most often that is the one after it;
when a whole day or month is refused, the periods that fall into it are passed over.
`lt_following_of_period?` and `lt_periodLimit_of_period?` say that this always leads
onwards and that there are finitely many periods.
-/

namespace Timetable

open Civil

/-- One evaluated period.  A rule whose deadline lies before `floor`, the tick or the first
midnight of the period, has ended.  The minute or hour into which a tick expands can begin
before the tick. -/
structure Period where
  floor : DateTime
  candidates : List DateTime
  following : Nat
  deriving DecidableEq

namespace Rule

/-- How many steps of a size lead to or past a distance. -/
def stepsTo (distance step : Nat) : Nat :=
  (distance + step - 1) / step

/-- The first permitted time of day that a tick at second `now` can reach on its day, in
steps of `step` seconds and without moving if it can. -/
def nextTickTime? (r : Rule) (start : Time) (now step : Nat) : Option Nat :=
  (r.tickTimes start).firstFrom? now fun t => (t - now) % step = 0

/-- Evaluate a tick of a rule that is finer than a day; `step` is the number of seconds
between two ticks.  A refused tick leads to the first one past the refused month or day, or
to the next one at a permitted time of the day. -/
def tickPeriod? (r : Rule) (start : DateTime) (step k : Nat) : Option Period :=
  (start.addSeconds? (k * step)).map fun tick =>
    let now := tick.time.secondOfDay
    let skip (distance : Nat) : Period := ⟨tick, [], k + stepsTo distance step⟩
    let restOfDay := 86400 - now
    if !r.admitsMonth tick.date.month then
      skip (86400 * (tick.date.yearMonth.length - tick.date.day) + restOfDay)
    else if !r.selects start.date tick.date then
      skip restOfDay
    else
      match r.nextTickTime? start.time now step with
      | none => skip restOfDay
      | some t =>
          if now < t then
            skip (t - now)
          else
            ⟨tick, r.datetimesOn tick.time tick.date, k + 1⟩

/-- The first date of period number `k` of a rule that is not finer than a day, and the
number of days of the period. -/
def span? (r : Rule) (start : Date) (k : Nat) : Option (Date × Nat) :=
  let distance := k * r.interval
  match r.frequency with
  | .weekly => do
      let week ← start.addDays? (-(start.weekday.daysSince r.weekStart : Int))
      let first ← week.addDays? (7 * distance : Nat)
      return (first, 7)
  | .monthly => do
      let month ← start.yearMonth.later? distance
      let first ← Date.ofDay? month 1
      return (first, month.length)
  | .yearly =>
      let year := start.year + distance
      (Date.ofDay? ⟨year, .january⟩ 1).map fun first => (first, daysInYear year)
  | _ => (start.addDays? distance).map fun day => (day, 1)

/-- How many periods further the next one is.  A day in a refused month of a daily rule
leads past the month. -/
def advance (r : Rule) (first : Date) : Nat :=
  if r.frequency = .daily && !r.admitsMonth first.month then
    stepsTo (first.yearMonth.length - first.day + 1) r.interval
  else
    1

/-- Evaluate a period of a rule that is not finer than a day. -/
def spanPeriod? (r : Rule) (start : DateTime) (k : Nat) : Option Period :=
  (r.span? start.date k).map fun (first, days) =>
    let dates := (Date.run first.number days).filter (r.selects start.date)
    ⟨DateTime.midnightOf first, dates.flatMap (r.datetimesOn start.time), k + r.advance first⟩

/-- Evaluate period number `k`, before set positions are applied and with datetimes before
the start still in it. -/
def wholePeriod? (r : Rule) (start : DateTime) (k : Nat) : Option Period :=
  match r.frequency.unitSeconds? with
  | some unit => r.tickPeriod? start (unit * r.interval) k
  | none => r.spanPeriod? start k

/-- Evaluate period number `k` of a rule followed from `start`. -/
def period? (r : Rule) (start : DateTime) (k : Nat) : Option Period :=
  (r.wholePeriod? start k).map fun p =>
    { p with
      candidates := (Position.select r.setPositions p.candidates).filter (start ≤ ·) }

/-- A number that no period inside the calendar reaches: the calendar has fewer seconds. -/
def periodLimit : Nat :=
  1000000000000

theorem stepsTo_pos {distance step : Nat} (hd : 0 < distance) (hs : 0 < step) :
    0 < stepsTo distance step :=
  Nat.div_pos (by omega) hs

/-- Fewer steps than lead to a distance stay below it. -/
theorem mul_lt_of_lt_stepsTo {i distance step : Nat} (h : i < stepsTo distance step) :
    i * step < distance := by
  have hle := Nat.mul_le_of_le_div _ _ _ (show i + 1 ≤ stepsTo distance step from h)
  rw [Nat.add_mul] at hle
  by_cases hstep : step = 0
  · simp [stepsTo, hstep] at h
  · omega

theorem lt_following_of_tickPeriod? {r : Rule} {start : DateTime} {step k : Nat}
    {p : Period} (hstep : 0 < step) (h : r.tickPeriod? start step k = some p) :
    k < p.following := by
  simp only [tickPeriod?, Option.map_eq_some_iff] at h
  obtain ⟨tick, -, rfl⟩ := h
  have hday := tick.time.secondOfDay_lt
  have hskip (distance : Nat) (hd : 0 < distance) : k < k + stepsTo distance step := by
    have := stepsTo_pos hd hstep
    omega
  split
  · exact hskip _ (by omega)
  split
  · exact hskip _ (by omega)
  split
  · exact hskip _ (by omega)
  split
  · exact hskip _ (by omega)
  · exact Nat.lt_succ_self k

theorem lt_following_of_spanPeriod? {r : Rule} {start : DateTime} {k : Nat} {p : Period}
    (h : r.spanPeriod? start k = some p) : k < p.following := by
  simp only [spanPeriod?, Option.map_eq_some_iff] at h
  obtain ⟨⟨first, days⟩, -, rfl⟩ := h
  have hadvance : 0 < r.advance first := by
    unfold advance
    split
    · exact stepsTo_pos (by omega) r.interval_pos
    · exact Nat.one_pos
  show k < k + r.advance first
  omega

theorem unitSeconds_pos {f : Frequency} {unit : Nat} (h : f.unitSeconds? = some unit) :
    0 < unit := by
  rcases Frequency.unitSeconds?_eq_some_iff.mp h with ⟨-, rfl⟩ | ⟨-, rfl⟩ | ⟨-, rfl⟩ <;> decide

/-- The periods that are evaluated lead onwards. -/
theorem lt_following_of_period? {r : Rule} {start : DateTime} {k : Nat} {p : Period}
    (h : r.period? start k = some p) : k < p.following := by
  simp only [period?, wholePeriod?, Option.map_eq_some_iff] at h
  obtain ⟨q, hq, rfl⟩ := h
  show k < q.following
  split at hq
  next unit hunit =>
    have hpos := Nat.mul_pos (unitSeconds_pos hunit) r.interval_pos
    exact lt_following_of_tickPeriod? hpos hq
  next => exact lt_following_of_spanPeriod? hq

private theorem le_mul_of_pos (k : Nat) {n : Nat} (h : 0 < n) : k ≤ k * n :=
  Nat.le_mul_of_pos_right k h

private theorem year_le_of_ofDay? {ym : YearMonth} {day : Nat} {d : Date}
    (h : Date.ofDay? ym day = some d) : ym.year ≤ 9999 := by
  rw [← (Date.yearMonth_day_of_ofDay? h).1]
  exact d.year_le

private theorem lt_periodLimit_of_span? {r : Rule} {start : Date} {k : Nat}
    {q : Date × Nat} (h : r.span? start k = some q) : k < periodLimit := by
  have hk := le_mul_of_pos k r.interval_pos
  have hfirst := start.first_le
  have hyear := start.le_year
  -- The first day of the period lies inside the calendar, which ends before the limit.
  simp only [span?] at h
  show k < 1000000000000
  split at h
  next =>
    simp only [Option.bind_eq_bind, Option.bind_eq_some_iff, Option.pure_def,
      Option.some.injEq, Date.addDays?_eq_some_iff] at h
    obtain ⟨week, hweek, first, hnumber, -⟩ := h
    have hlast := first.le_last
    have hseven := start.weekday.daysSince_lt r.weekStart
    omega
  next =>
    simp only [Option.bind_eq_bind, Option.bind_eq_some_iff, YearMonth.later?] at h
    obtain ⟨month, hmonth, -⟩ := h
    split at hmonth
    next hshift =>
      have hgreatest : k * r.interval ≤ 239976 := hshift
      omega
    next => simp at hmonth
  next =>
    simp only [Option.map_eq_some_iff] at h
    obtain ⟨first, hfirst, -⟩ := h
    have hlast := year_le_of_ofDay? hfirst
    dsimp only at hlast
    omega
  next =>
    simp only [Option.map_eq_some_iff, Date.addDays?_eq_some_iff] at h
    obtain ⟨day, hnumber, -⟩ := h
    have hlast := day.le_last
    omega

/-- Only finitely many periods lie inside the calendar. -/
theorem lt_periodLimit_of_period? {r : Rule} {start : DateTime} {k : Nat} {p : Period}
    (h : r.period? start k = some p) : k < periodLimit := by
  simp only [period?, wholePeriod?, Option.map_eq_some_iff] at h
  obtain ⟨q, hq, -⟩ := h
  split at hq
  next unit hunit =>
    have hpos := Nat.mul_pos (unitSeconds_pos hunit) r.interval_pos
    have hk := le_mul_of_pos k hpos
    simp only [tickPeriod?, Option.map_eq_some_iff, DateTime.addSeconds?_eq_some_iff] at hq
    obtain ⟨tick, ⟨hdistance, -⟩, -⟩ := hq
    have hgreatest : DateTime.greatestDays = 2932896 := rfl
    show k < 1000000000000
    omega
  next =>
    simp only [spanPeriod?, Option.map_eq_some_iff] at hq
    obtain ⟨q, hspan, -⟩ := hq
    exact lt_periodLimit_of_span? hspan

end Rule
end Timetable
