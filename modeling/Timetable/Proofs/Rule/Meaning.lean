import Timetable.Proofs.Rule.Frequencies
import Timetable.Proofs.Rule.Numbering
import Timetable.Proofs.Rule.Validity

/-!
# What daily, monthly and yearly rules mean

For each of these frequencies a structure says when a rule occurs, in terms of the calendar
alone: `OccursDaily`, `OccursMonthly` and `OccursYearly`.  A rule without an ending and set
positions has just these occurrences.  What all of them share, also with weekly rules, is
`FollowsStart`.

The numbers that a rule lists are looked up among the days of a month or year
(`Position.member?`); an ordinal is looked up among those of the days that fall on its weekday.

Daily and yearly rules reach the end of the calendar from every start.  Monthly ones do where
single steps of months are exact.
-/

namespace Timetable

open Civil

namespace Civil

/-- Whether a date has the start's month and day, where a 29 February gives way to the 28th in
a year without one. -/
def Date.IsAnniversaryOf (d start : Date) : Prop :=
  d.month = start.month ∧
    d.day = if start.month = .february ∧ start.day = 29 ∧ isLeapYear d.year = false then 28
      else start.day

end Civil

namespace Rule

variable {r : Rule} {start t : DateTime} {first d : Date}

/-! ## The lists of days -/

/-- Whether one of the listed numbers, if there are any, names a date among some days. -/
def ListsDay (numbers : List Int) (days : List Date) (d : Date) : Prop :=
  numbers = [] ∨ ∃ n ∈ numbers, Position.member? days n = some d

/-- Whether a date falls on one of the listed weekdays, if there are any.  An ordinal asks for
the date that it names among those of the days that fall on the weekday. -/
def ListsWeekday (selectors : List WeekdaySelector) (days : List Date) (d : Date) : Prop :=
  selectors = [] ∨ ∃ s ∈ selectors, s.weekday = d.weekday ∧
    ∀ n ∈ s.ordinal, Position.member? (days.filter (·.weekday = s.weekday)) n = some d

/-- The days among which the ordinals of a rule's weekdays count. -/
def ordinalDays (r : Rule) (d : Date) : List Date :=
  if r.countsWithinYear then daysOfYear d.year else d.yearMonth.days

theorem admitsMonth_iff {m : Month} :
    r.admitsMonth m = true ↔ r.months = [] ∨ m ∈ r.months := by
  simp [admitsMonth]

theorem admitsYearDay_iff_listsDay :
    r.admitsYearDay d = true ↔ ListsDay r.yearDays (daysOfYear d.year) d := by
  simp only [admitsYearDay, ListsDay, Bool.or_eq_true, List.isEmpty_iff, List.any_eq_true,
    d.member?_daysOfYear_eq_some_iff]

theorem admitsMonthDay_iff_listsDay :
    r.admitsMonthDay d = true ↔ ListsDay r.monthDays d.yearMonth.days d := by
  simp only [admitsMonthDay, ListsDay, Bool.or_eq_true, List.isEmpty_iff, List.any_eq_true,
    d.member?_days_eq_some_iff]

theorem ordinalPosition_isNamedBy_iff (n : Int) :
    (r.ordinalPosition d).isNamedBy n = true ↔
      Position.member? ((r.ordinalDays d).filter (·.weekday = d.weekday)) n = some d := by
  rw [ordinalPosition, ordinalDays]
  split
  · rw [d.member?_weekdaysOfYear_eq_some_iff]
  · rw [d.member?_weekdays_eq_some_iff]

theorem admitsWeekday_iff_listsWeekday :
    r.admitsWeekday d = true ↔ ListsWeekday r.weekdays (r.ordinalDays d) d := by
  simp only [admitsWeekday, ListsWeekday, Bool.or_eq_true, List.isEmpty_iff, List.any_eq_true,
    Bool.and_eq_true, decide_eq_true_eq, Option.all_eq_true]
  apply or_congr_right
  apply exists_congr
  intro s
  apply and_congr_right
  intro _
  apply and_congr_right
  intro hweekday
  rw [hweekday]
  simp only [ordinalPosition_isNamedBy_iff, Option.mem_def]

/-- Without ordinals only the names of the weekdays count. -/
theorem listsWeekday_iff_of_plain {selectors : List WeekdaySelector} {days : List Date}
    (hplain : ∀ s ∈ selectors, s.ordinal = none) :
    ListsWeekday selectors days d ↔
      selectors = [] ∨ d.weekday ∈ selectors.map WeekdaySelector.weekday := by
  rw [ListsWeekday, List.mem_map]
  apply or_congr_right
  apply exists_congr
  intro s
  apply and_congr_right
  intro hs
  simp [hplain s hs]

/-- A selected date passes every list, and stands for the start's day if no days are listed. -/
theorem selects_iff_admits :
    r.selects first d = true ↔
      r.admitsMonth d.month = true ∧ r.admitsYearDay d = true ∧ r.admitsMonthDay d = true ∧
        r.admitsWeekday d = true ∧ (r.listsDays = false → r.isStartDay first d = true) := by
  rw [selects, Bool.and_eq_true]
  apply and_congr_right
  intro _
  cases hlists : r.listsDays with
  | true => simp [and_assoc]
  | false =>
      -- Empty lists admit every date.
      obtain ⟨hyearDays, hmonthDays, hweekdays⟩ := listsDays_eq_false_iff.mp hlists
      simp [admitsYearDay, admitsMonthDay, admitsWeekday, hyearDays, hmonthDays, hweekdays]

/-! ## What the frequencies have in common -/

/-- What a rule asks of a datetime at every frequency that is not finer than a day. -/
structure FollowsStart (r : Rule) (start t : DateTime) : Prop where
  start_le : start ≤ t
  month : r.months = [] ∨ t.date.month ∈ r.months
  hour : t.time.hour ∈ listedOr r.hours start.time.hour
  minute : t.time.minute ∈ listedOr r.minutes start.time.minute
  second : t.time.second ∈ listedOr r.seconds start.time.second
  nanosecond : t.time.nanosecond = start.time.nanosecond

theorem admitsComponent_iff_mem_listedOr {listed : List Nat} {own v : Nat} :
    admitsComponent listed false own v = true ↔ v ∈ listedOr listed own := by
  rw [admitsComponent_iff, listedOr]
  cases listed <;> simp

theorem followsStart_iff (hunit : r.frequency.unitSeconds? = none) :
    r.FollowsStart start t ↔
      start ≤ t ∧ r.admitsMonth t.date.month = true ∧
        r.admitsTime start.time t.time = true := by
  obtain ⟨hsecondly, hminutely, hhourly⟩ := Frequency.unitSeconds?_eq_none_iff.mp hunit
  simp only [admitsTime, hsecondly, hminutely, hhourly, decide_false, Bool.or_false,
    Bool.and_eq_true, decide_eq_true_eq, admitsComponent_iff_mem_listedOr, admitsMonth_iff]
  constructor
  · intro h
    exact ⟨h.start_le, h.month, ⟨⟨h.hour, h.minute⟩, h.second⟩, h.nanosecond⟩
  · rintro ⟨hle, hmonth, ⟨⟨hhour, hminute⟩, hsecond⟩, hnano⟩
    exact ⟨hle, hmonth, hhour, hminute, hsecond, hnano⟩

/-- When a rule without an ending and set positions occurs, as far as single steps lead. -/
theorem mem_occurrences_iff_followsStart (hunit : r.frequency.unitSeconds? = none)
    (hending : r.ending = none) (hpositions : r.setPositions = []) :
    t ∈ (r.occurrences start).toList ↔
      r.FollowsStart start t ∧ r.beginsInside start.date = true ∧
        r.reaches start.date t.date = true ∧
        (r.interval : Int) ∣ r.unitNumber t - r.unitNumber start ∧
        ListsDay r.yearDays (daysOfYear t.date.year) t.date ∧
        ListsDay r.monthDays t.date.yearMonth.days t.date ∧
        ListsWeekday r.weekdays (r.ordinalDays t.date) t.date ∧
        (r.yearDays = [] ∧ r.monthDays = [] ∧ r.weekdays = [] →
          r.isStartDay start.date t.date = true) := by
  rw [toList_occurrences_of_ending_eq_none hending, mem_offers_iff_dvd hpositions,
    followsStart_iff hunit, selects_iff_admits, ← admitsYearDay_iff_listsDay,
    ← admitsMonthDay_iff_listsDay, ← admitsWeekday_iff_listsWeekday, ← listsDays_eq_false_iff]
  constructor
  · rintro ⟨hle, hinside, hreaches, hdvd, ⟨hmonth, hdays⟩, htime⟩
    exact ⟨⟨hle, hmonth, htime⟩, hinside, hreaches, hdvd, hdays⟩
  · rintro ⟨⟨hle, hmonth, htime⟩, hinside, hreaches, hdvd, hdays⟩
    exact ⟨hle, hinside, hreaches, hdvd, ⟨hmonth, hdays⟩, htime⟩

/-! ## Daily rules -/

/-- When a daily rule occurs. -/
structure OccursDaily (r : Rule) (start t : DateTime) : Prop extends
    r.FollowsStart start t where
  interval_dvd : (r.interval : Int) ∣ t.date.number - start.date.number
  monthDay : ListsDay r.monthDays t.date.yearMonth.days t.date
  weekday : r.weekdays = [] ∨ t.date.weekday ∈ r.weekdays.map WeekdaySelector.weekday

/-- What the evaluation of a day does: the day is a number of intervals after the start, those
that are passed over are in its month, which the rule refuses, and then it goes on in a later
month. -/
theorem exists_day_of_period? {k : Nat} {p : Period} (hfrequency : r.frequency = .daily)
    (hp : r.period? start k = some p) :
    ∃ day : Date, day.number = start.date.number + (k * r.interval : Nat) ∧
      p.floor = DateTime.midnightOf day ∧
      (∀ j (d : Date), k < j → j < p.following →
        d.number = start.date.number + (j * r.interval : Nat) →
        r.admitsMonth day.month = false ∧ d.yearMonth = day.yearMonth) ∧
      (r.admitsMonth day.month = false → ∀ d : Date,
        d.number = start.date.number + (p.following * r.interval : Nat) →
        day.yearMonth.index < d.yearMonth.index) := by
  obtain ⟨whole, hwhole, hfloor, hfollowing, -⟩ := period?_cases hp
  rw [wholePeriod?, hfrequency] at hwhole
  obtain ⟨day, days, hspan, hfloor', -, hfollowing'⟩ := spanPeriod?_cases hwhole
  obtain ⟨hbegin, -⟩ := begin_end_of_span? hspan
  simp only [spanBegin, hfrequency] at hbegin
  refine ⟨day, hbegin, hfloor.trans hfloor', ?_, ?_⟩
  · intro j d hkj hj hd
    -- The days passed over are counted from this day, as the jump is.
    have hdistance : d.number = day.number + ((j - k) * r.interval : Nat) := by
      have hle := Nat.mul_le_mul_right r.interval (Nat.le_of_lt hkj)
      rw [Nat.sub_mul]
      omega
    exact (refused_of_lt_advance (by omega) (by omega) hdistance).2
  · intro hrefused d hd
    rw [hfollowing, hfollowing', Nat.add_mul] at hd
    apply index_lt_of_advance hfrequency hrefused
    omega

/-- A daily rule without an ending and set positions has the occurrences that its lists
describe.  It evaluates days a number of intervals after the start; those it passes over are in
a month that it refuses, and behind them it goes on in a later month. -/
theorem mem_occurrences_iff_occursDaily (hvalid : r.Valid) (hfrequency : r.frequency = .daily)
    (hending : r.ending = none) (hpositions : r.setPositions = []) :
    (∀ t, t ∈ (r.occurrences start).toList ↔ r.OccursDaily start t) ∧
    ∀ k p, r.period? start k = some p → ∃ day : Date,
      day.number = start.date.number + (k * r.interval : Nat) ∧
      p.floor = DateTime.midnightOf day ∧
      (∀ j (d : Date), k < j → j < p.following →
        d.number = start.date.number + (j * r.interval : Nat) →
        ¬ (r.months = [] ∨ d.month ∈ r.months)) ∧
      (¬ (r.months = [] ∨ day.month ∈ r.months) → ∀ d : Date,
        d.number = start.date.number + (p.following * r.interval : Nat) →
        day.yearMonth.index < d.yearMonth.index) := by
  constructor
  · intro t
    have hunit : r.frequency.unitSeconds? = none := by
      rw [hfrequency]
      rfl
    have hinside := beginsInside_of_ne_weekly (r := r) (by rw [hfrequency]; decide) start.date
    have hreaches : r.reaches start.date t.date = true := by
      rw [reaches, hfrequency]
    have hday (u : DateTime) : r.unitNumber u = u.date.number := by
      rw [unitNumber, hfrequency]
    have hyearDays := hvalid.yearDays_eq_nil (by rw [hfrequency]; decide)
    have hplain := hvalid.ordinal_eq_none (by rw [hfrequency]; rfl)
    have hownDay : r.isStartDay start.date t.date = true := by
      rw [isStartDay, hfrequency]
    rw [mem_occurrences_iff_followsStart hunit hending hpositions, hday, hday,
      listsWeekday_iff_of_plain hplain]
    constructor
    · rintro ⟨hfollows, -, -, hdvd, -, hmonthDay, hweekday, -⟩
      exact ⟨hfollows, hdvd, hmonthDay, hweekday⟩
    · intro h
      exact ⟨h.toFollowsStart, hinside, hreaches, h.interval_dvd, .inl hyearDays, h.monthDay,
        h.weekday, fun _ => hownDay⟩
  · intro k p hp
    obtain ⟨day, hnumber, hfloor, hpassed, hlater⟩ := exists_day_of_period? hfrequency hp
    refine ⟨day, hnumber, hfloor, ?_, ?_⟩
    · intro j d hkj hj hd
      obtain ⟨hrefused, hmonth⟩ := hpassed j d hkj hj hd
      rw [← admitsMonth_iff, Date.month, hmonth, ← Date.month, hrefused]
      exact Bool.false_ne_true
    · rw [← admitsMonth_iff, Bool.not_eq_true]
      exact hlater

/-- Half past twelve on every tenth day, on Tuesdays and Thursdays in January and March that are
the fifth day of their month or the seventh from its end. -/
def tenthDays : Rule :=
  { frequency := .daily, interval := 10, ending := none, weekStart := .monday,
    months := [.march, .january], yearDays := [], monthDays := [-7, 5],
    weekdays := [⟨.tuesday, none⟩, ⟨.thursday, none⟩], hours := [12], minutes := [],
    seconds := [60, 0], setPositions := [], interval_pos := by decide }

/-- Thursday, 25 January 2024, at half past eight. -/
def januaryMorning : DateTime :=
  (DateTime.ofReading? 2024 1 25 8 30 0 0).get (by decide)

/-- Tuesday, 5 March 2024, at half past twelve, forty days after `januaryMorning`. -/
def marchNoon : DateTime :=
  (DateTime.ofReading? 2024 3 5 12 30 0 0).get (by decide)

/-- From 4 February on the tenth days of the month are passed over, up to 5 March. -/
theorem tenthDays_pass_over_february :
    tenthDays.Valid ∧ tenthDays.frequency = .daily ∧ tenthDays.ending = none ∧
      tenthDays.setPositions = [] ∧
      (tenthDays.occurrences januaryMorning).item 1 = some marchNoon ∧
      tenthDays.OccursDaily januaryMorning marchNoon ∧
      ∃ p, tenthDays.period? januaryMorning 1 = some p ∧ p.following = 4 ∧
        ∀ j (d : Date), 1 < j → j < p.following →
          d.number = januaryMorning.date.number + (j * tenthDays.interval : Nat) →
          ¬ (tenthDays.months = [] ∨ d.month ∈ tenthDays.months) := by
  have hvalid : tenthDays.Valid := by decide +kernel
  have hitem : (tenthDays.occurrences januaryMorning).item 1 = some marchNoon := by
    decide +kernel
  have hmem : marchNoon ∈ (tenthDays.occurrences januaryMorning).toList :=
    Occurrences.mem_toList_of_item_eq_some hitem
  have hoccurs : tenthDays.OccursDaily januaryMorning marchNoon :=
    ((mem_occurrences_iff_occursDaily hvalid rfl rfl rfl).1 marchNoon).mp hmem
  obtain ⟨p, hp, hfollowing⟩ :
      ∃ p, tenthDays.period? januaryMorning 1 = some p ∧ p.following = 4 :=
    ⟨⟨DateTime.midnightOf ⟨739285, by decide, by decide⟩, [], 4⟩, by decide +kernel, rfl⟩
  obtain ⟨day, -, -, hpassed, -⟩ :=
    (mem_occurrences_iff_occursDaily hvalid rfl rfl rfl).2 1 p hp
  exact ⟨hvalid, rfl, rfl, rfl, hitem, hoccurs, p, hp, hfollowing, hpassed⟩

/-! ## Monthly rules -/

/-- When a monthly rule occurs.  If no days are listed, the start's day of the month takes their
place, or the last day of a shorter month. -/
structure OccursMonthly (r : Rule) (start t : DateTime) : Prop extends
    r.FollowsStart start t where
  interval_dvd : (r.interval : Int) ∣ t.date.yearMonth.index - start.date.yearMonth.index
  monthDay : ListsDay r.monthDays t.date.yearMonth.days t.date
  weekday : ListsWeekday r.weekdays t.date.yearMonth.days t.date
  ownDay : r.monthDays = [] ∧ r.weekdays = [] →
    t.date.day = min start.date.day t.date.yearMonth.length

/-- A monthly rule without an ending and set positions has the occurrences that its lists
describe, up to the greatest number of months by which a single step leads; where single steps
of months are exact, it has all of them. -/
theorem mem_occurrences_iff_occursMonthly (hvalid : r.Valid)
    (hfrequency : r.frequency = .monthly) (hending : r.ending = none)
    (hpositions : r.setPositions = []) :
    (t ∈ (r.occurrences start).toList ↔ r.OccursMonthly start t ∧
      t.date.yearMonth.index ≤ start.date.yearMonth.index + YearMonth.greatestShift) ∧
    (start.date.HasExactMonths →
      (t ∈ (r.occurrences start).toList ↔ r.OccursMonthly start t)) := by
  have hunit : r.frequency.unitSeconds? = none := by
    rw [hfrequency]
    rfl
  have hinside := beginsInside_of_ne_weekly (r := r) (by rw [hfrequency]; decide) start.date
  have hreaches : r.reaches start.date t.date = true ↔
      t.date.yearMonth.index ≤ start.date.yearMonth.index + YearMonth.greatestShift := by
    rw [reaches, hfrequency, decide_eq_true_eq]
  have hmonth (u : DateTime) : r.unitNumber u = u.date.yearMonth.index := by
    rw [unitNumber, hfrequency]
  have hyearDays := hvalid.yearDays_eq_nil (by rw [hfrequency]; decide)
  -- A monthly rule counts ordinals within the month.
  have hordinalDays : r.ordinalDays t.date = t.date.yearMonth.days := by
    simp [ordinalDays, countsWithinYear, hfrequency]
  have hownDay : r.isStartDay start.date t.date = true ↔
      t.date.day = min start.date.day t.date.yearMonth.length := by
    rw [isStartDay, hfrequency, decide_eq_true_eq]
  have hiff : t ∈ (r.occurrences start).toList ↔ r.OccursMonthly start t ∧
      t.date.yearMonth.index ≤ start.date.yearMonth.index + YearMonth.greatestShift := by
    rw [mem_occurrences_iff_followsStart hunit hending hpositions, hmonth, hmonth, hreaches,
      hordinalDays, hownDay]
    constructor
    · rintro ⟨hfollows, -, hreach, hdvd, -, hmonthDay, hweekday, hday⟩
      exact ⟨⟨hfollows, hdvd, hmonthDay, hweekday, fun hnone => hday ⟨hyearDays, hnone⟩⟩, hreach⟩
    · rintro ⟨h, hreach⟩
      exact ⟨h.toFollowsStart, hinside, hreach, h.interval_dvd, .inl hyearDays, h.monthDay,
        h.weekday, fun hnone => h.ownDay hnone.2⟩
  refine ⟨hiff, ?_⟩
  intro hexact
  rw [hiff, and_iff_left_iff_imp]
  intro h
  exact hexact.index_le (DateTime.number_le_of_le h.start_le)

/-- Midnight on the second and the last Friday of every other month, if that is the 13th or the
month's last day. -/
def oddFridays : Rule :=
  { frequency := .monthly, interval := 2, ending := none, weekStart := .monday, months := [],
    yearDays := [], monthDays := [13, -1],
    weekdays := [⟨.friday, some (-1)⟩, ⟨.friday, some 2⟩], hours := [0], minutes := [0],
    seconds := [0], setPositions := [], interval_pos := Nat.two_pos }

/-- The last day of January 2024, a Wednesday, in the morning. -/
def endOfJanuary : DateTime :=
  (DateTime.ofReading? 2024 1 31 8 30 0 0).get (by decide)

/-- Midnight of the second Friday of September 2024. -/
def septemberThe13th : DateTime :=
  (DateTime.ofReading? 2024 9 13 0 0 0 0).get (by decide)

/-- 31 May 2024 is the first of these Fridays, 13 September the second one. -/
theorem oddFridays_occur :
    oddFridays.Valid ∧ oddFridays.frequency = .monthly ∧ oddFridays.ending = none ∧
      oddFridays.setPositions = [] ∧ endOfJanuary.date.HasExactMonths ∧
      (oddFridays.occurrences endOfJanuary).item 1 = some septemberThe13th ∧
      oddFridays.OccursMonthly endOfJanuary septemberThe13th := by
  have hvalid : oddFridays.Valid := by decide +kernel
  have hexact : endOfJanuary.date.HasExactMonths := Date.hasExactMonths_of_year (by decide)
  have hitem : (oddFridays.occurrences endOfJanuary).item 1 = some septemberThe13th := by
    decide +kernel
  refine ⟨hvalid, rfl, rfl, rfl, hexact, hitem,
    ((mem_occurrences_iff_occursMonthly hvalid rfl rfl rfl).2 hexact).mp ?_⟩
  exact Occurrences.mem_toList_of_item_eq_some hitem

/-! ## Yearly rules -/

/-- When a yearly rule occurs.  Ordinals count within the month if months are listed, otherwise
within the year.  If no days are listed, the start's day of the month takes their place, in the
listed months or, without any, in the start's own one. -/
structure OccursYearly (r : Rule) (start t : DateTime) : Prop extends
    r.FollowsStart start t where
  interval_dvd : (r.interval : Int) ∣ t.date.year - start.date.year
  yearDay : ListsDay r.yearDays (daysOfYear t.date.year) t.date
  monthDay : ListsDay r.monthDays t.date.yearMonth.days t.date
  weekday : ListsWeekday r.weekdays
    (if r.months = [] then daysOfYear t.date.year else t.date.yearMonth.days) t.date
  ownDay : r.yearDays = [] ∧ r.monthDays = [] ∧ r.weekdays = [] →
    if r.months = [] then t.date.IsAnniversaryOf start.date else t.date.day = start.date.day

/-- The 29 February is the only day that gives way to a shorter month a number of years
later. -/
theorem isAnniversaryOf_iff :
    d.IsAnniversaryOf first ↔ d.month = first.month ∧ d.day = min first.day d.yearMonth.length := by
  apply and_congr_right
  intro hmonth
  have hlength : d.yearMonth.length = first.month.length (isLeapYear d.year) := by
    rw [← hmonth]
    rfl
  have hday : first.day ≤ first.month.length (isLeapYear first.year) := first.day_le_length
  rw [hlength]
  by_cases hfebruary : first.month = .february
  · have hlast : first.day ≤ 29 := by
      rw [hfebruary, Month.length] at hday
      split at hday <;> omega
    rw [hfebruary]
    cases isLeapYear d.year
    · simp only [Month.length, Bool.false_eq_true, if_false, true_and, and_true]
      split <;> omega
    · simp only [Month.length, Bool.true_eq_false, if_true, if_false, and_false]
      omega
  · rw [Month.length_eq_of_ne_february hfebruary (isLeapYear first.year)
      (isLeapYear d.year)] at hday
    simp [hfebruary, Nat.min_eq_left hday]

/-- A yearly rule without an ending and set positions has the occurrences that its lists
describe. -/
theorem mem_occurrences_iff_occursYearly (hfrequency : r.frequency = .yearly)
    (hending : r.ending = none) (hpositions : r.setPositions = []) :
    t ∈ (r.occurrences start).toList ↔ r.OccursYearly start t := by
  have hunit : r.frequency.unitSeconds? = none := by
    rw [hfrequency]
    rfl
  have hinside := beginsInside_of_ne_weekly (r := r) (by rw [hfrequency]; decide) start.date
  have hreaches : r.reaches start.date t.date = true := by
    rw [reaches, hfrequency]
  have hyear (u : DateTime) : r.unitNumber u = u.date.year := by
    rw [unitNumber, hfrequency]
  have hordinalDays : r.ordinalDays t.date =
      if r.months = [] then daysOfYear t.date.year else t.date.yearMonth.days := by
    simp [ordinalDays, countsWithinYear, hfrequency]
  have hownDay : r.isStartDay start.date t.date = true ↔
      if r.months = [] then t.date.IsAnniversaryOf start.date
        else t.date.day = start.date.day := by
    rw [isAnniversaryOf_iff, isStartDay, hfrequency]
    by_cases hmonths : r.months = []
    · simp [hmonths]
    · simp [hmonths]
  rw [mem_occurrences_iff_followsStart hunit hending hpositions, hyear, hyear, hordinalDays,
    hownDay]
  constructor
  · rintro ⟨hfollows, -, -, hdvd, hyearDay, hmonthDay, hweekday, hday⟩
    exact ⟨hfollows, hdvd, hyearDay, hmonthDay, hweekday, hday⟩
  · intro h
    exact ⟨h.toFollowsStart, hinside, hreaches, h.interval_dvd, h.yearDay, h.monthDay, h.weekday,
      h.ownDay⟩

/-- New Year's Eve in every other year, if it is the fifty-third Saturday of its year, or the
fifty-third Sunday from the end. -/
def longSaturdays : Rule :=
  { frequency := .yearly, interval := 2, ending := none, weekStart := .monday, months := [],
    yearDays := [-1], monthDays := [], weekdays := [⟨.saturday, some 53⟩, ⟨.sunday, some (-53)⟩],
    hours := [], minutes := [], seconds := [], setPositions := [], interval_pos := Nat.two_pos }

/-- The first midnight of 2005, on a Saturday. -/
def newYear2005 : DateTime :=
  (DateTime.ofReading? 2005 1 1 0 0 0 0).get (by decide)

/-- The last midnight of 2011, on the fifty-third Saturday of the year. -/
def newYearsEve2011 : DateTime :=
  (DateTime.ofReading? 2011 12 31 0 0 0 0).get (by decide)

/-- After that of 2005 the last day of 2011 is such a Saturday. -/
theorem longSaturdays_occur :
    longSaturdays.frequency = .yearly ∧ longSaturdays.ending = none ∧
      longSaturdays.setPositions = [] ∧
      (longSaturdays.occurrences newYear2005).item 1 = some newYearsEve2011 ∧
      longSaturdays.OccursYearly newYear2005 newYearsEve2011 := by
  have hitem : (longSaturdays.occurrences newYear2005).item 1 = some newYearsEve2011 := by
    decide +kernel
  refine ⟨rfl, rfl, rfl, hitem, (mem_occurrences_iff_occursYearly rfl rfl rfl).mp ?_⟩
  exact Occurrences.mem_toList_of_item_eq_some hitem

end Rule
end Timetable
