import Timetable.Proofs.Machine.Days
import Timetable.Proofs.Machine.Positions
import Timetable.Proofs.Machine.Times

/-!
# Periods with machine numbers

`step` evaluates one period of a rule with machine numbers: the distance from the start, the
dates of the period from the lists, their times and the set positions.  Where a checked operation
has no result, or the calendar has no such date, there is no period.  Periods are numbered from
zero, so no distance from the start is negative.

`Evaluates` says what it takes for such a computation to be right: it does not break down, its
datetimes are those of the period that `Rule.period?` evaluates, and it leads to the same period
next.  It may also stop one period early, if that one is empty and the calendar ends before the
next.
-/

namespace Timetable
namespace Machine

open Civil

/-- One evaluated period. -/
structure Step where
  floor : DateTime
  candidates : List DateTime
  following : Int

/-- A period from which another one, so many periods later, comes next. -/
def leadOn (floor : DateTime) (candidates : List DateTime) (period jump : Int) : Option Step :=
  (Word.signed64.fit? (period + jump)).map fun following => ⟨floor, candidates, following⟩

/-! ## The calendar -/

/-- The first day of the month that comes some months later. -/
def firstOfMonth? (d : Date) (months : Nat) : Option Date :=
  (d.yearMonth.later? months).bind fun month => Date.ofDay? month 1

/-- The date some months later.  A day that the month lacks gives way to its last day. -/
def monthsLater? (d : Date) (months : Nat) : Option Date :=
  (d.yearMonth.later? months).bind fun month => Date.ofDay? month (min d.day month.length)

/-- The date some years later.  A day that the month lacks gives way to its last day. -/
def yearsLater? (d : Date) (years : Nat) : Option Date :=
  if years ≤ 19998 then
    let month : YearMonth := ⟨d.year + years, d.month⟩
    Date.ofDay? month (min d.day month.length)
  else
    none

/-- The number of days from the first day of a week to a weekday. -/
def daysSince (d weekStart : Weekday) : Machine Int := do
  let sum ← Word.unsigned8.add d.number 7
  let distance ← Word.unsigned8.sub sum weekStart.number
  Word.unsigned8.rem distance 7

/-! ## Ticks -/

/-- Pass over the ticks before a boundary. -/
def skipTo (tick boundary : DateTime) (step period : Int) : Machine (Option Step) := do
  let gap ← Word.signed128.fit (boundary.instant - tick.instant)
  let stepNanos ← Word.signed128.mul step 1000000000
  let sum ← Word.signed128.add gap stepNanos
  let sum ← Word.signed128.sub sum 1
  let quotient ← Word.signed128.quot sum stepNanos
  let some ticks := Word.signed64.fit? (max quotient 1) | return none
  return leadOn tick [] period ticks

/-- Pass over the ticks before a midnight, if the calendar has the date. -/
def skipToDate (tick : DateTime) (date? : Option Date) (step period : Int) :
    Machine (Option Step) := do
  let some date := date? | return none
  skipTo tick (DateTime.midnightOf date) step period

/-- The datetimes into which a tick expands. -/
def expandTick (r : Rule) (tick : DateTime) : Machine (List DateTime) :=
  match r.frequency with
  | .hourly => do
      let hour ← Word.unsigned8.cast tick.time.hour
      expandTimes [tick.date] [hour.toNat] r.minutes r.seconds tick.time
  | .minutely => do
      let hour ← Word.unsigned8.cast tick.time.hour
      let minute ← Word.unsigned8.cast tick.time.minute
      expandTimes [tick.date] [hour.toNat] [minute.toNat] r.seconds tick.time
  | _ => return [tick]

/-- Whether steps lead from one time of a day to another one. -/
def inReach (now step t : Int) : Machine Bool :=
  if now ≤ t then do
    let distance ← Word.signed64.sub t now
    let rest ← Word.signed64.rem distance step
    return rest == 0
  else
    return false

/-- Evaluate a tick on a day that counts. -/
def tickTimeStep (r : Rule) (start tick : DateTime) (step period : Int) :
    Machine (Option Step) := do
  let now ← clockSecond tick.time.hour tick.time.minute tick.time.second
  match ← firstTime? (r.tickTimes start.time) (inReach now step) with
  | none => skipToDate tick (tick.date.addDays? 1) step period
  | some t =>
      if now < t then
        let distance ← Word.signed64.sub t now
        let some boundary := tick.addSeconds? distance.toNat | return none
        skipTo tick boundary step period
      else
        let candidates ← expandTick r tick
        return leadOn tick candidates period 1

/-- Evaluate a tick of a rule that is finer than a day. -/
def tickStep (r : Rule) (start : DateTime) (period : Int) : Machine (Option Step) := do
  let some step := tickSeconds? r | return none
  let some offset := Word.signed64.fit? (period * step) | return none
  let some tick := start.addSeconds? offset.toNat | return none
  if !(← matchesMonth r.months tick.date) then
    skipToDate tick (firstOfMonth? tick.date 1) step period
  else if !(← matchesMonthDay r.monthDays tick.date) || !matchesWeekday r.weekdays tick.date then
    skipToDate tick (tick.date.addDays? 1) step period
  else
    tickTimeStep r start tick step period

/-! ## Days, weeks, months and years -/

/-- The period of some dates. -/
def expandDates (r : Rule) (start floor : DateTime) (dates : List Date) (period : Int) :
    Machine (Option Step) := do
  let candidates ← expandTimes dates r.hours r.minutes r.seconds start.time
  return leadOn floor candidates period 1

/-- How many periods lead past the month of a date. -/
def periodsLeft (d : Date) (interval : Int) : Machine Int := do
  let days ← Word.signed8.sub d.yearMonth.length d.day
  let remaining ← Word.signed64.add days 1
  let sum ← Word.signed64.add remaining interval
  let sum ← Word.signed64.sub sum 1
  Word.signed64.quot sum interval

/-- Evaluate a day of a daily rule.  A day of a month that does not count leads past its month. -/
def dailyStep (r : Rule) (start : DateTime) (period : Int) : Machine (Option Step) := do
  let some days := Word.signed64.fit? (period * r.interval) | return none
  let some date := start.date.addDays? days | return none
  let floor := DateTime.midnightOf date
  if !(← matchesMonth r.months date) then
    let jump ← periodsLeft date r.interval
    return leadOn floor [] period jump
  else if !(← matchesMonthDay r.monthDays date) || !matchesWeekday r.weekdays date then
    return leadOn floor [] period 1
  else
    expandDates r start floor [date] period

/-- Evaluate a week of a weekly rule, from the first day of its week on. -/
def weeklyStep (r : Rule) (start : DateTime) (period : Int) : Machine (Option Step) := do
  let passed ← daysSince start.date.weekday r.weekStart
  let back ← Word.signed64.sub 0 passed
  let some week := start.date.addDays? back | return none
  let some weeks := Word.signed64.fit? (period * r.interval) | return none
  let some days := Word.signed64.fit? (weeks * 7) | return none
  let some first := week.addDays? days | return none
  let weekdays :=
    if r.weekdays.isEmpty then [start.date.weekday] else r.weekdays.map WeekdaySelector.weekday
  let offsets ← weekdays.mapM fun d => daysSince d r.weekStart
  let dates ← (offsets.filterMap first.addDays?).filterM (matchesMonth r.months)
  expandDates r start (DateTime.midnightOf first) dates period

/-- Evaluate a month of a monthly rule.  If no days are listed, the start's day of the month takes
their place, or the last day of a shorter month. -/
def monthlyStep (r : Rule) (start : DateTime) (period : Int) : Machine (Option Step) := do
  let some months := Word.signed64.fit? (period * r.interval) | return none
  let some first := firstOfMonth? start.date months.toNat | return none
  let floor := DateTime.midnightOf first
  if !(← matchesMonth r.months first) then
    return leadOn floor [] period 1
  else if r.monthDays.isEmpty && r.weekdays.isEmpty then
    let some date := monthsLater? start.date months.toNat | return none
    expandDates r start floor [date] period
  else
    let dates ← monthDates r first.yearMonth
    expandDates r start floor dates period

/-- Evaluate a year of a yearly rule.  If no days are listed, the start's day of the month takes
their place in the listed months, or without any in the start's own month. -/
def yearlyStep (r : Rule) (start : DateTime) (period : Int) : Machine (Option Step) := do
  let some years := Word.signed64.fit? (period * r.interval) | return none
  let some sum := Word.signed64.fit? (start.date.year + years) | return none
  let some year := Word.signed16.fit? sum | return none
  let some first := Date.ofDay? ⟨year, .january⟩ 1 | return none
  let floor := DateTime.midnightOf first
  if r.listsDays then
    let dates ← yearDates r first
    expandDates r start floor dates period
  else if r.months.isEmpty then
    let some date := yearsLater? start.date years.toNat | return none
    expandDates r start floor [date] period
  else
    let dates ← datesInMonths year r.months start.date.day
    expandDates r start floor dates period

/-! ## All frequencies -/

/-- Evaluate a period, before set positions are applied. -/
def wholeStep (r : Rule) (start : DateTime) (period : Int) : Machine (Option Step) :=
  match r.frequency with
  | .secondly | .minutely | .hourly => tickStep r start period
  | .daily => dailyStep r start period
  | .weekly => weeklyStep r start period
  | .monthly => monthlyStep r start period
  | .yearly => yearlyStep r start period

/-- Evaluate a period of a rule followed from `start`. -/
def step (r : Rule) (start : DateTime) (period : Int) : Machine (Option Step) := do
  let some whole ← wholeStep r start period | return none
  let candidates ← selectPositions whole.candidates r.setPositions
  return some { whole with candidates := candidates.filter (start ≤ ·) }

/-- Whether a computation evaluates period number `k` of those that `evaluate?` gives. -/
inductive Evaluates (evaluate? : Nat → Option Period) (k : Nat) : Machine (Option Step) → Prop
  | period {p : Period} {candidates : List DateTime} (hperiod : evaluate? k = some p)
      (hcandidates : ∀ t, t ∈ candidates ↔ t ∈ p.candidates) :
      Evaluates evaluate? k (pure (some ⟨p.floor, candidates, p.following⟩))
  | outside (hperiod : evaluate? k = none) : Evaluates evaluate? k (pure none)
  | lastEmpty {p : Period} (hperiod : evaluate? k = some p) (hempty : p.candidates = [])
      (hfollowing : evaluate? p.following = none) : Evaluates evaluate? k (pure none)

/-- A check does not matter if its number fits wherever there is a period. -/
theorem evaluates_of_fit? {evaluate? : Nat → Option Period} {k : Nat} {w : Word} {n : Int}
    {x : Machine (Option Step)} {f : Int → Machine (Option Step)}
    (hx : x = (w.fit? n).elim (pure none) f)
    (hholds : ∀ p, evaluate? k = some p → w.Holds n) (hf : Evaluates evaluate? k (f n)) :
    Evaluates evaluate? k x := by
  subst hx
  by_cases hfits : w.Holds n
  · rwa [Word.fit?_of_holds hfits, Option.elim_some]
  · rw [Word.fit?_of_not_holds hfits, Option.elim_none]
    cases hperiod : evaluate? k with
    | none => exact .outside hperiod
    | some p => exact absurd (hholds p hperiod) hfits

/-! ## Onwards -/

/-- Whether a computation leads to later periods only, whose numbers a word holds. -/
def Leads (period : Int) (x : Machine (Option Step)) : Prop :=
  ∀ s, x = .ok (some s) → period < s.following ∧ s.following ≤ Word.signed64.greatest

variable {r : Rule} {start tick boundary floor : DateTime} {period stepSize : Int}

theorem leads_none : Leads period (pure none) := by
  intro s h
  cases h

theorem leads_bind {α : Type} {x : Machine α} {f : α → Machine (Option Step)}
    (h : ∀ a, x = .ok a → Leads period (f a)) : Leads period (x >>= f) := by
  cases hx : x with
  | error breakdown =>
      intro s hs
      cases hs
  | ok a => exact h a hx

theorem leads_leadOn {jump : Int} (hjump : 0 < jump) (candidates : List DateTime) :
    Leads period (pure (leadOn floor candidates period jump)) := by
  intro s hs
  obtain ⟨following, hfits, rfl⟩ := Option.map_eq_some_iff.mp (Except.ok.inj hs)
  obtain ⟨hholds, rfl⟩ := Word.fit?_eq_some_iff.mp hfits
  exact ⟨by dsimp only; omega, hholds.2⟩

theorem leads_skipTo : Leads period (skipTo tick boundary stepSize period) := by
  unfold skipTo
  refine leads_bind fun gap _ => leads_bind fun stepNanos _ => leads_bind fun sum _ =>
    leads_bind fun rest _ => leads_bind fun quotient _ => ?_
  split
  next ticks hticks =>
    obtain ⟨-, rfl⟩ := Word.fit?_eq_some_iff.mp hticks
    exact leads_leadOn (by omega) _
  next => exact leads_none

theorem leads_skipToDate {date? : Option Date} :
    Leads period (skipToDate tick date? stepSize period) := by
  unfold skipToDate
  split
  · exact leads_skipTo
  · exact leads_none

theorem leads_tickTimeStep : Leads period (tickTimeStep r start tick stepSize period) := by
  unfold tickTimeStep
  refine leads_bind fun now _ => leads_bind fun time? _ => ?_
  split
  · exact leads_skipToDate
  split
  · refine leads_bind fun distance _ => ?_
    split
    · exact leads_skipTo
    · exact leads_none
  · exact leads_bind fun candidates _ => leads_leadOn (by decide) _

theorem leads_tickStep : Leads period (tickStep r start period) := by
  unfold tickStep
  split
  case h_2 => exact leads_none
  split
  case h_2 => exact leads_none
  split
  case h_2 => exact leads_none
  refine leads_bind fun month _ => ?_
  split
  · exact leads_skipToDate
  refine leads_bind fun monthDay _ => ?_
  split
  · exact leads_skipToDate
  · exact leads_tickTimeStep

theorem leads_expandDates {dates : List Date} :
    Leads period (expandDates r start floor dates period) :=
  leads_bind fun _ _ => leads_leadOn (by decide) _

/-- The month of a date has at least one more day, the date itself. -/
theorem periodsLeft_pos {d : Date} {interval jump : Int} (hinterval : 0 < interval)
    (h : periodsLeft d interval = .ok jump) : 0 < jump := by
  have hday := d.day_le_length
  simp only [periodsLeft, Word.add, Word.sub, Word.quot, bind_eq_ok_iff, Word.fit_eq_ok_iff,
    if_neg (Int.ne_of_gt hinterval)] at h
  obtain ⟨-, ⟨-, rfl⟩, -, ⟨-, rfl⟩, -, ⟨-, rfl⟩, -, ⟨-, rfl⟩, -, rfl⟩ := h
  rw [Int.tdiv_eq_ediv_of_nonneg (by omega)]
  exact Int.lt_of_lt_of_le Int.one_pos (Int.le_ediv_of_mul_le hinterval (by omega))

theorem leads_dailyStep : Leads period (dailyStep r start period) := by
  unfold dailyStep
  split
  case h_2 => exact leads_none
  split
  case h_2 => exact leads_none
  refine leads_bind fun month _ => ?_
  split
  · exact leads_bind fun jump hjump =>
      leads_leadOn (periodsLeft_pos (Int.natCast_pos.mpr r.interval_pos) hjump) _
  refine leads_bind fun monthDay _ => ?_
  split
  · exact leads_leadOn (by decide) _
  · exact leads_expandDates

theorem leads_weeklyStep : Leads period (weeklyStep r start period) := by
  unfold weeklyStep
  refine leads_bind fun passed _ => leads_bind fun back _ => ?_
  split
  case h_2 => exact leads_none
  split
  case h_2 => exact leads_none
  split
  case h_2 => exact leads_none
  split
  case h_2 => exact leads_none
  exact leads_bind fun offsets _ => leads_bind fun dates _ => leads_expandDates

theorem leads_monthlyStep : Leads period (monthlyStep r start period) := by
  unfold monthlyStep
  split
  case h_2 => exact leads_none
  split
  case h_2 => exact leads_none
  refine leads_bind fun month _ => ?_
  split
  · exact leads_leadOn (by decide) _
  split
  · split
    · exact leads_expandDates
    · exact leads_none
  · exact leads_bind fun dates _ => leads_expandDates

theorem leads_yearlyStep : Leads period (yearlyStep r start period) := by
  unfold yearlyStep
  split
  case h_2 => exact leads_none
  split
  case h_2 => exact leads_none
  split
  case h_2 => exact leads_none
  split
  case h_2 => exact leads_none
  split
  · exact leads_bind fun dates _ => leads_expandDates
  split
  · split
    · exact leads_expandDates
    · exact leads_none
  · exact leads_bind fun dates _ => leads_expandDates

theorem leads_wholeStep : Leads period (wholeStep r start period) := by
  unfold wholeStep
  split
  · exact leads_tickStep
  · exact leads_tickStep
  · exact leads_tickStep
  · exact leads_dailyStep
  · exact leads_weeklyStep
  · exact leads_monthlyStep
  · exact leads_yearlyStep

/-- The periods that are evaluated lead onwards. -/
theorem leads_step : Leads period (step r start period) := by
  unfold step
  refine leads_bind fun whole? hwhole => ?_
  split
  case h_2 => exact leads_none
  next whole =>
    refine leads_bind fun candidates _ s hs => ?_
    obtain rfl := Option.some.inj (Except.ok.inj hs)
    exact leads_wholeStep whole hwhole

end Machine
end Timetable
