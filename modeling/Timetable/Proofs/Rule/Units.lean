import Timetable.Proofs.Rule.Sequence

/-!
# The units that the periods of a rule are made of

Every datetime lies in one second, minute, hour, day, week, month and year.  `unitNumber`
counts the units of a rule's frequency, so the unit of period number `k` is the one that is
`k` intervals after the unit of the start.

`mem_wholeOffer_iff` says without any evaluation what a period offers before set positions
are applied: the datetimes of its unit on selected dates at admitted times.  A list of times
for a unit at or above the frequency limits it; a list for a finer unit is expanded
(`admitsTime`).  Nothing else depends on the frequency, apart from how far single steps lead
(`reaches`) and from weekly rules that would begin before the calendar (`beginsInside`).
-/

namespace Timetable

open Civil

namespace Rule

variable {r : Rule} {start t : DateTime} {k unit : Nat}

/-! ## Units, times and reach -/

/-- The number of the unit of a rule's frequency in which a datetime lies. -/
def unitNumber (r : Rule) (t : DateTime) : Int :=
  match r.frequency with
  | .secondly => t.wholeSeconds
  | .minutely => t.wholeSeconds / 60
  | .hourly => t.wholeSeconds / 3600
  | .daily => t.date.number
  | .weekly => (t.date.number + 6 - r.weekStart.number) / 7
  | .monthly => t.date.yearMonth.index
  | .yearly => t.date.year

/-- Whether a component of a time agrees with a list.  If nothing is listed, a list that
limits admits everything, and one that is expanded the start's own component. -/
def admitsComponent (listed : List Nat) (limits : Bool) (own v : Nat) : Bool :=
  if listed.isEmpty then limits || v = own else listed.contains v

/-- Whether a rule's lists admit a time, with `own` the time of the start. -/
def admitsTime (r : Rule) (own t : Time) : Bool :=
  let limitsSeconds : Bool := r.frequency = .secondly
  let limitsMinutes : Bool := limitsSeconds || r.frequency = .minutely
  let limitsHours : Bool := limitsMinutes || r.frequency = .hourly
  admitsComponent r.hours limitsHours own.hour t.hour &&
    admitsComponent r.minutes limitsMinutes own.minute t.minute &&
    admitsComponent r.seconds limitsSeconds own.second t.second &&
    t.nanosecond = own.nanosecond

/-- Whether a date is near enough to the start for the single step by which a rule gets
there. -/
def reaches (r : Rule) (start d : Date) : Bool :=
  match r.frequency with
  | .secondly | .minutely | .hourly => d.number ≤ start.number + DateTime.greatestDays
  | .monthly => d.yearMonth.index ≤ start.yearMonth.index + YearMonth.greatestShift
  | _ => true

/-- Whether the unit of the start begins inside the calendar, as only a week may not. -/
def beginsInside (r : Rule) (start : Date) : Bool :=
  r.frequency ≠ .weekly ||
    (start.addDays? (-(start.weekday.daysSince r.weekStart : Int))).isSome

theorem admitsComponent_iff {listed : List Nat} {limits : Bool} {own v : Nat} :
    admitsComponent listed limits own v = true ↔
      listed = [] ∧ (limits = true ∨ v = own) ∨ listed ≠ [] ∧ v ∈ listed := by
  unfold admitsComponent
  by_cases h : listed = []
  · simp [h]
  · simp [h]

theorem mem_limit_iff_admitsComponent (listed : List Nat) (own : Nat) {bound v : Nat}
    (hv : v < bound) :
    v ∈ Clock.limit listed bound ↔ admitsComponent listed true own v = true := by
  rw [Clock.mem_limit_iff, admitsComponent_iff]
  by_cases h : listed = []
  · simp [h, hv]
  · simp [h, hv]

theorem mem_expand_iff_admitsComponent (listed : List Nat) (own : Nat) {bound v : Nat}
    (hv : v < bound) :
    v ∈ Clock.expand listed bound own ↔ admitsComponent listed false own v = true := by
  rw [Clock.mem_expand_iff, admitsComponent_iff]
  by_cases h : listed = []
  · simp [h]
  · simp [h, hv]

/-! ## What a period offers as a whole -/

/-- What a period offers before set positions are applied and what is before the start is
cut off. -/
def wholeOffer (r : Rule) (start : DateTime) (k : Nat) : List DateTime :=
  ((r.wholePeriod? start k).map Period.candidates).getD []

theorem offer_eq_select_wholeOffer (r : Rule) (start : DateTime) (k : Nat) :
    r.offer start k =
      (Position.select r.setPositions (r.wholeOffer start k)).filter (start ≤ ·) := by
  rw [offer, period?, wholeOffer]
  cases r.wholePeriod? start k with
  | none => simp
  | some whole => rfl

theorem mem_wholeOffer_of_mem_offer (h : t ∈ r.offer start k) : t ∈ r.wholeOffer start k := by
  rw [offer_eq_select_wholeOffer] at h
  exact (Position.select_sublist _ _).subset (List.mem_of_mem_filter h)

theorem mem_wholeOffer :
    t ∈ r.wholeOffer start k ↔ ∃ p, r.wholePeriod? start k = some p ∧ t ∈ p.candidates := by
  rw [wholeOffer]
  cases r.wholePeriod? start k with
  | none => simp
  | some whole => simp

theorem wholeOffer_ascends (r : Rule) (start : DateTime) (k : Nat) :
    (r.wholeOffer start k).Pairwise (· < ·) := by
  rw [wholeOffer]
  cases h : r.wholePeriod? start k with
  | none => exact List.Pairwise.nil
  | some whole => exact (r.chronological_wholePeriod? start).candidates_ascend h

/-! ## Days, weeks, months and years -/

/-- A date lies in the span at a distance just if its unit is at this distance. -/
theorem spanBegin_le_iff_unitNumber_eq (hunit : r.frequency.unitSeconds? = none) (n : Nat) :
    r.spanBegin start.date n ≤ t.date.number ∧ t.date.number < r.spanBegin start.date (n + 1) ↔
      r.unitNumber t = r.unitNumber start + n := by
  obtain ⟨hsecondly, hminutely, hhourly⟩ := Frequency.unitSeconds?_eq_none_iff.mp hunit
  unfold spanBegin unitNumber
  -- Days and weeks are plain arithmetic; months and years need where their first days lie.
  cases hfrequency : r.frequency
  case daily =>
    dsimp only
    omega
  case weekly =>
    have hweek := start.date.daysSince_weekday r.weekStart
    dsimp only
    omega
  case monthly =>
    have hnext : (start.date.yearMonth.shift (n + 1 : Nat)).index =
        (start.date.yearMonth.shift n).index + 1 := by
      rw [YearMonth.index_shift, YearMonth.index_shift]
      omega
    have hend := YearMonth.firstDay_add_length hnext
    dsimp only
    rw [← hend]
    constructor
    · rintro ⟨hle, hlt⟩
      rw [Date.yearMonth_eq hle hlt, YearMonth.index_shift]
    · intro hindex
      have hmonth : t.date.yearMonth = start.date.yearMonth.shift n := by
        apply YearMonth.index_injective
        rw [hindex, YearMonth.index_shift]
      rw [← hmonth]
      exact ⟨t.date.firstDay_le_number, t.date.number_lt_firstDay_add_length⟩
  case yearly =>
    dsimp only
    rw [Int.natCast_add, ← Int.add_assoc]
    constructor
    · rintro ⟨hle, hlt⟩
      exact yearOfDay_eq hle hlt
    · intro hyear
      rw [← hyear]
      exact ⟨daysBeforeYear_yearOfDay_le _, lt_daysBeforeYear_yearOfDay_succ _⟩
  all_goals contradiction

/-- When the span exists in which a date lies. -/
theorem isSome_span?_iff (hunit : r.frequency.unitSeconds? = none)
    (h : r.unitNumber t = r.unitNumber start + (k * r.interval : Nat)) :
    (r.span? start.date k).isSome ↔
      r.beginsInside start.date = true ∧ r.reaches start.date t.date = true := by
  obtain ⟨hsecondly, hminutely, hhourly⟩ := Frequency.unitSeconds?_eq_none_iff.mp hunit
  unfold unitNumber at h
  unfold span? beginsInside reaches
  generalize k * r.interval = distance at h ⊢
  cases hfrequency : r.frequency
  case daily =>
    simp only [hfrequency] at h
    have hday : start.date.addDays? distance = some t.date := Date.addDays?_eq_some_iff.mpr h
    simp [hday]
  case weekly =>
    simp only [hfrequency] at h
    have hsince := start.date.daysSince_weekday r.weekStart
    cases hweek : start.date.addDays? (-(start.date.weekday.daysSince r.weekStart : Int)) with
    | none => simp
    | some week =>
        rw [Date.addDays?_eq_some_iff] at hweek
        have hbegin := week.first_le
        have hlast := t.date.le_last
        -- The week of the date begins no later than the date.
        have hfirst : week.addDays? (7 * distance : Nat) =
            some ⟨week.number + (7 * distance : Nat), by omega, by omega⟩ :=
          Date.addDays?_eq_some_iff.mpr rfl
        simp only [Option.bind_eq_bind, Option.bind_some, hfirst]
        simp
  case monthly =>
    simp only [hfrequency] at h
    have hmonth : t.date.yearMonth = start.date.yearMonth.shift distance := by
      apply YearMonth.index_injective
      rw [h, YearMonth.index_shift]
    obtain ⟨first, hfirst⟩ := Date.exists_ofDay? t.date.yearMonth t.date.le_year
      t.date.year_le (Nat.le_refl 1) t.date.yearMonth.one_le_length
    simp only [YearMonth.later?, ← hmonth, h]
    by_cases hnear : distance ≤ YearMonth.greatestShift
    · simp [hnear, hfirst]
    · simp [hnear]
  case yearly =>
    simp only [hfrequency] at h
    obtain ⟨first, hfirst⟩ := Date.exists_ofDay? ⟨t.date.year, .january⟩ t.date.le_year
      t.date.year_le (Nat.le_refl 1) (YearMonth.one_le_length _)
    rw [h] at hfirst
    simp [hfirst]
  all_goals contradiction

/-- A day has the times that a rule's lists admit. -/
theorem mem_datetimesOn_iff_admitsTime (hunit : r.frequency.unitSeconds? = none) {own : Time} :
    t ∈ r.datetimesOn own t.date ↔ r.admitsTime own t.time = true := by
  obtain ⟨hsecondly, hminutely, hhourly⟩ := Frequency.unitSeconds?_eq_none_iff.mp hunit
  have hexpansion : r.expansion own = ⟨Clock.expand r.hours 24 own.hour,
      Clock.expand r.minutes 60 own.minute, Clock.expand r.seconds 60 own.second⟩ := by
    unfold expansion
    split <;> first | contradiction | rfl
  have hhour := mem_expand_iff_admitsComponent r.hours own.hour t.time.hour_lt
  have hminute := mem_expand_iff_admitsComponent r.minutes own.minute t.time.minute_lt
  have hsecond := mem_expand_iff_admitsComponent r.seconds own.second t.time.second_lt
  rw [mem_datetimesOn_iff, (r.proper_expansion own).mem_times_iff_components, hexpansion]
  simp only [admitsTime, hsecondly, hminutely, hhourly, decide_false, Bool.or_false,
    Bool.and_eq_true, decide_eq_true_eq, true_and, ← hhour, ← hminute, ← hsecond, and_assoc]
  rfl

theorem mem_wholeOffer_of_span (hunit : r.frequency.unitSeconds? = none) :
    t ∈ r.wholeOffer start k ↔
      r.beginsInside start.date = true ∧ r.reaches start.date t.date = true ∧
        r.unitNumber t = r.unitNumber start + (k * r.interval : Nat) ∧
        r.selects start.date t.date = true ∧ r.admitsTime start.time t.time = true := by
  have hwhole : r.wholePeriod? start k = r.spanPeriod? start k := by
    rw [wholePeriod?, hunit]
  rw [mem_wholeOffer, hwhole, ← mem_datetimesOn_iff_admitsTime hunit]
  constructor
  · rintro ⟨p, hp, ht⟩
    obtain ⟨first, days, hspan, -⟩ := spanPeriod?_cases hp
    obtain ⟨hle, hlt, hselects, htimes⟩ := (mem_candidates_of_spanPeriod? hp hspan).mp ht
    obtain ⟨hbegin, hend⟩ := begin_end_of_span? hspan
    rw [hend] at hlt
    rw [hbegin] at hle
    have hnumber := (spanBegin_le_iff_unitNumber_eq hunit _).mp ⟨hle, hlt⟩
    obtain ⟨hinside, hreaches⟩ := (isSome_span?_iff hunit hnumber).mp (by rw [hspan]; rfl)
    exact ⟨hinside, hreaches, hnumber, hselects, htimes⟩
  -- The period is there because its unit begins inside the calendar and within reach.
  · rintro ⟨hinside, hreaches, hnumber, hselects, htimes⟩
    obtain ⟨⟨first, days⟩, hspan⟩ := Option.isSome_iff_exists.mp
      ((isSome_span?_iff hunit hnumber).mpr ⟨hinside, hreaches⟩)
    obtain ⟨hle, hlt⟩ := (spanBegin_le_iff_unitNumber_eq hunit _).mpr hnumber
    obtain ⟨hbegin, hend⟩ := begin_end_of_span? hspan
    obtain ⟨p, hp⟩ : ∃ p, r.spanPeriod? start k = some p := by
      rw [spanPeriod?, hspan]
      exact ⟨_, rfl⟩
    refine ⟨p, hp, (mem_candidates_of_spanPeriod? hp hspan).mpr ⟨?_, ?_, hselects, htimes⟩⟩
    · rwa [hbegin]
    · rwa [hend]

/-! ## Hours, minutes and seconds -/

theorem unitNumber_eq_div (hunit : r.frequency.unitSeconds? = some unit) (t : DateTime) :
    r.unitNumber t = t.wholeSeconds / unit := by
  unfold unitNumber
  rcases Frequency.unitSeconds?_eq_some_iff.mp hunit with
    ⟨hfrequency, rfl⟩ | ⟨hfrequency, rfl⟩ | ⟨hfrequency, rfl⟩
  all_goals simp [hfrequency]

theorem reaches_iff_of_unitSeconds? (hunit : r.frequency.unitSeconds? = some unit)
    {start d : Date} :
    r.reaches start d = true ↔ d.number ≤ start.number + DateTime.greatestDays := by
  unfold reaches
  rcases Frequency.unitSeconds?_eq_some_iff.mp hunit with
    ⟨hfrequency, -⟩ | ⟨hfrequency, -⟩ | ⟨hfrequency, -⟩
  all_goals simp [hfrequency]

theorem beginsInside_of_ne_weekly (hweekly : r.frequency ≠ .weekly) (start : Date) :
    r.beginsInside start = true := by
  simp [beginsInside, hweekly]

theorem beginsInside_of_unitSeconds? (hunit : r.frequency.unitSeconds? = some unit)
    (start : Date) : r.beginsInside start = true := by
  apply beginsInside_of_ne_weekly
  intro hweekly
  rw [hweekly] at hunit
  simp [Frequency.unitSeconds?] at hunit

/-- A component that a list limits is that of the tick, and the list admits it. -/
theorem mem_limit_and_eq_iff (listed : List Nat) (own : Nat) {bound v w : Nat} (hw : w < bound) :
    w ∈ Clock.limit listed bound ∧ v ∈ [w] ↔
      v = w ∧ admitsComponent listed true own v = true := by
  rw [mem_limit_iff_admitsComponent listed own hw, List.mem_singleton, and_comm]
  exact and_congr_right fun hv => by rw [hv]

/-- A component that a list expands is one that the list admits, if the tick has the start's. -/
theorem eq_and_mem_expand_iff (listed : List Nat) {bound own v w : Nat} (hv : v < bound)
    (hown : w = own) :
    w ∈ [own] ∧ v ∈ Clock.expand listed bound w ↔ admitsComponent listed false own v = true := by
  rw [hown, List.mem_singleton, eq_self, true_and, mem_expand_iff_admitsComponent listed own hv]

/-- Two times are among those of two clocks component by component. -/
theorem mem_times_and_mem_times_iff {c d : Clock} (hc : c.Proper) (hd : d.Proper) {s t : Time} :
    s.secondOfDay ∈ c.times ∧ t.secondOfDay ∈ d.times ↔
      (s.hour ∈ c.hours ∧ t.hour ∈ d.hours) ∧ (s.minute ∈ c.minutes ∧ t.minute ∈ d.minutes) ∧
        s.second ∈ c.seconds ∧ t.second ∈ d.seconds := by
  rw [hc.mem_times_iff_components, hd.mem_times_iff_components, and_and_and_comm]
  exact and_congr_right fun _ => and_and_and_comm

/-- A tick counts and expands into a time just if the time is in the tick's unit and the
rule's lists admit it. -/
theorem tick_and_expansion_iff_admitsTime (hunit : r.frequency.unitSeconds? = some unit)
    {start tick t : Time} (hphase : tick.secondOfDay % unit = start.secondOfDay % unit) :
    tick.secondOfDay ∈ (r.tickTimes start).times ∧ t.secondOfDay ∈ (r.expansion tick).times ∧
        t.nanosecond = start.nanosecond ↔
      t.secondOfDay / unit = tick.secondOfDay / unit ∧ r.admitsTime start t = true := by
  have hlimitHour := mem_limit_and_eq_iff r.hours start.hour (v := t.hour) tick.hour_lt
  have hlimitMinute := mem_limit_and_eq_iff r.minutes start.minute (v := t.minute) tick.minute_lt
  have hlimitSecond := mem_limit_and_eq_iff r.seconds start.second (v := t.second) tick.second_lt
  have hexpandMinute (hown : tick.minute = start.minute) :=
    eq_and_mem_expand_iff r.minutes t.minute_lt hown
  have hexpandSecond (hown : tick.second = start.second) :=
    eq_and_mem_expand_iff r.seconds t.second_lt hown
  rw [← and_assoc, mem_times_and_mem_times_iff (r.proper_tickTimes start)
    (r.proper_expansion tick)]
  unfold tickTimes expansion admitsTime
  rcases Frequency.unitSeconds?_eq_some_iff.mp hunit with
    ⟨hfrequency, rfl⟩ | ⟨hfrequency, rfl⟩ | ⟨hfrequency, rfl⟩
  · simp only [hfrequency, Nat.div_one, Time.secondOfDay_eq_iff, hlimitHour, hlimitMinute,
      hlimitSecond, decide_true, Bool.true_or, Bool.and_eq_true, decide_eq_true_eq]
    constructor
    · rintro ⟨⟨⟨hh, h⟩, ⟨hm, m⟩, hs, s⟩, hnano⟩
      exact ⟨⟨hh, hm, hs⟩, ⟨⟨h, m⟩, s⟩, hnano⟩
    · rintro ⟨⟨hh, hm, hs⟩, ⟨⟨h, m⟩, s⟩, hnano⟩
      exact ⟨⟨⟨hh, h⟩, ⟨hm, m⟩, hs, s⟩, hnano⟩
  -- A whole number of minutes leaves the second as it is, so the tick has the start's.
  · have hsecond : tick.second = start.second := hphase
    simp only [hfrequency, Time.secondOfDay_div_60_eq_iff, hlimitHour, hlimitMinute,
      hexpandSecond hsecond, reduceCtorEq, decide_true, decide_false, Bool.true_or,
      Bool.false_or, Bool.and_eq_true, decide_eq_true_eq]
    constructor
    · rintro ⟨⟨⟨hh, h⟩, ⟨hm, m⟩, s⟩, hnano⟩
      exact ⟨⟨hh, hm⟩, ⟨⟨h, m⟩, s⟩, hnano⟩
    · rintro ⟨⟨hh, hm⟩, ⟨⟨h, m⟩, s⟩, hnano⟩
      exact ⟨⟨⟨hh, h⟩, ⟨hm, m⟩, s⟩, hnano⟩
  -- A whole number of hours leaves the minute and the second as they are.
  · have hminute : tick.minute = start.minute := by
      simp only [Time.minute]
      omega
    have hsecond : tick.second = start.second := by
      simp only [Time.second]
      omega
    change _ ↔ t.hour = tick.hour ∧ _
    simp only [hfrequency, hlimitHour, hexpandMinute hminute, hexpandSecond hsecond,
      reduceCtorEq, decide_true, decide_false, Bool.false_or, Bool.and_eq_true,
      decide_eq_true_eq]
    constructor
    · rintro ⟨⟨⟨hh, h⟩, m, s⟩, hnano⟩
      exact ⟨hh, ⟨⟨h, m⟩, s⟩, hnano⟩
    · rintro ⟨hh, ⟨⟨h, m⟩, s⟩, hnano⟩
      exact ⟨⟨⟨hh, h⟩, m, s⟩, hnano⟩

/-- The unit of a datetime has a tick, unless it is too far from the start. -/
private theorem exists_tick_iff (hunit : r.frequency.unitSeconds? = some unit) {distance : Nat}
    (h : t.wholeSeconds / unit = start.wholeSeconds / unit + distance) :
    (∃ tick, start.addSeconds? (unit * distance) = some tick) ↔
      t.date.number ≤ start.date.number + DateTime.greatestDays := by
  have hstart := start.time.secondOfDay_lt
  have ht := t.time.secondOfDay_lt
  have hfirst := start.date.first_le
  have hlast := t.date.le_last
  have hgreatest : DateTime.greatestDays = 2932896 := rfl
  simp only [DateTime.wholeSeconds] at h
  simp only [DateTime.addSeconds?_eq_some_iff]
  constructor
  · rintro ⟨tick, hreach, -⟩
    rcases Frequency.unitSeconds?_eq_some_iff.mp hunit with ⟨-, rfl⟩ | ⟨-, rfl⟩ | ⟨-, rfl⟩
    all_goals omega
  · intro hnear
    have hreach : start.time.secondOfDay + unit * distance <
          86400 * (DateTime.greatestDays + 1) ∧
        t.date.number = start.date.number +
          ((start.time.secondOfDay + unit * distance) / 86400 : Nat) := by
      rcases Frequency.unitSeconds?_eq_some_iff.mp hunit with ⟨-, rfl⟩ | ⟨-, rfl⟩ | ⟨-, rfl⟩
      all_goals omega
    exact ⟨⟨t.date, (start.time.secondOfDay + unit * distance) % 86400, start.time.nanosecond,
      Nat.mod_lt _ (by decide), start.time.nanosecond_lt⟩, hreach.1, hreach.2, rfl, rfl⟩

/-- What a tick and a datetime of its unit have in common. -/
private theorem date_eq_and_unit_eq (hunit : r.frequency.unitSeconds? = some unit)
    {tick : DateTime} {distance : Nat}
    (htick : start.addSeconds? (unit * distance) = some tick)
    (h : t.wholeSeconds / unit = start.wholeSeconds / unit + distance) :
    t.date = tick.date ∧ t.time.secondOfDay / unit = tick.time.secondOfDay / unit := by
  have hseconds := DateTime.wholeSeconds_addSeconds? htick
  have ht := t.time.secondOfDay_lt
  have htick' := tick.time.secondOfDay_lt
  simp only [DateTime.wholeSeconds] at h hseconds
  have hboth : t.date.number = tick.date.number ∧
      t.time.secondOfDay / unit = tick.time.secondOfDay / unit := by
    rcases Frequency.unitSeconds?_eq_some_iff.mp hunit with ⟨-, rfl⟩ | ⟨-, rfl⟩ | ⟨-, rfl⟩
    all_goals omega
  exact ⟨Date.ext_number hboth.1, hboth.2⟩

/-- Ticks agree with the start in what is finer than their unit. -/
private theorem secondOfDay_mod_unit_of_addSeconds?
    (hunit : r.frequency.unitSeconds? = some unit) {tick : DateTime} {distance : Nat}
    (htick : start.addSeconds? (unit * distance) = some tick) :
    tick.time.secondOfDay % unit = start.time.secondOfDay % unit := by
  obtain ⟨-, -, hsecond, -⟩ := DateTime.addSeconds?_eq_some_iff.mp htick
  rcases Frequency.unitSeconds?_eq_some_iff.mp hunit with ⟨-, rfl⟩ | ⟨-, rfl⟩ | ⟨-, rfl⟩
  all_goals omega

theorem mem_wholeOffer_of_tick (hunit : r.frequency.unitSeconds? = some unit) :
    t ∈ r.wholeOffer start k ↔
      r.beginsInside start.date = true ∧ r.reaches start.date t.date = true ∧
        r.unitNumber t = r.unitNumber start + (k * r.interval : Nat) ∧
        r.selects start.date t.date = true ∧ r.admitsTime start.time t.time = true := by
  have hwhole : r.wholePeriod? start k = r.tickPeriod? start (unit * r.interval) k := by
    rw [wholePeriod?, hunit]
  have hsteps : k * (unit * r.interval) = unit * (k * r.interval) := Nat.mul_left_comm ..
  rw [mem_wholeOffer, hwhole, iff_true_intro (beginsInside_of_unitSeconds? hunit start.date),
    true_and, reaches_iff_of_unitSeconds? hunit, unitNumber_eq_div hunit,
    unitNumber_eq_div hunit]
  constructor
  -- A candidate lies in the unit of its tick, which is `k` intervals after the start's.
  · rintro ⟨p, hp, ht⟩
    obtain ⟨tick, htick, -⟩ := tickPeriod?_cases hp
    rw [candidates_of_tickPeriod? hp htick] at ht
    split at ht
    next hkept =>
      obtain ⟨hselects, htickTime⟩ := keepsTick_iff.mp hkept
      obtain ⟨hdate, htime, hnano⟩ := mem_datetimesOn_iff.mp ht
      have hsame := wholeSeconds_div_of_mem_datetimesOn hunit ht
      have hstartNano := (DateTime.addSeconds?_eq_some_iff.mp htick).2.2.2
      rw [hsteps] at htick
      have hphase := secondOfDay_mod_unit_of_addSeconds? hunit htick
      have hnumber : t.wholeSeconds / unit =
          start.wholeSeconds / unit + (k * r.interval : Nat) := by
        rw [hsame, DateTime.wholeSeconds_addSeconds? htick, Int.natCast_mul unit,
          Int.add_mul_ediv_left]
        have := unitSeconds_pos hunit
        omega
      refine ⟨(exists_tick_iff hunit hnumber).mp ⟨tick, htick⟩, hnumber, ?_, ?_⟩
      · rwa [hdate]
      · exact ((tick_and_expansion_iff_admitsTime hunit hphase).mp
          ⟨htickTime, htime, hnano.trans hstartNano⟩).2
    next => simp at ht
  -- The other way round, the unit's number gives the tick, which keeps the start's phase.
  · rintro ⟨hnear, hnumber, hselects, htime⟩
    obtain ⟨tick, htick⟩ := (exists_tick_iff hunit hnumber).mpr hnear
    obtain ⟨hdate, hcell⟩ := date_eq_and_unit_eq hunit htick hnumber
    have hphase := secondOfDay_mod_unit_of_addSeconds? hunit htick
    have hstartNano := (DateTime.addSeconds?_eq_some_iff.mp htick).2.2.2
    rw [← hsteps] at htick
    obtain ⟨p, hp⟩ : ∃ p, r.tickPeriod? start (unit * r.interval) k = some p :=
      Option.isSome_iff_exists.mp (by simp [tickPeriod?, htick])
    obtain ⟨htickTime, hexpanded, hnano⟩ :=
      (tick_and_expansion_iff_admitsTime hunit hphase).mpr ⟨hcell, htime⟩
    have hkept : r.keepsTick start tick = true := by
      rw [keepsTick_iff, ← hdate]
      exact ⟨hselects, htickTime⟩
    refine ⟨p, hp, ?_⟩
    rw [candidates_of_tickPeriod? hp htick, if_pos hkept, mem_datetimesOn_iff]
    exact ⟨hdate, hexpanded, hnano.trans hstartNano.symm⟩

/-! ## All frequencies -/

/-- What a period offers before set positions are applied: the datetimes of the unit that is
`k` intervals after that of the start, on selected dates and at admitted times. -/
theorem mem_wholeOffer_iff :
    t ∈ r.wholeOffer start k ↔
      r.beginsInside start.date = true ∧ r.reaches start.date t.date = true ∧
        r.unitNumber t = r.unitNumber start + (k * r.interval : Nat) ∧
        r.selects start.date t.date = true ∧ r.admitsTime start.time t.time = true := by
  cases hunit : r.frequency.unitSeconds? with
  | none => exact mem_wholeOffer_of_span hunit
  | some unit => exact mem_wholeOffer_of_tick hunit

/-- A period is evaluated just if its unit, that of any of its datetimes, begins inside the
calendar and is reached. -/
theorem isSome_wholePeriod?_iff
    (h : r.unitNumber t = r.unitNumber start + (k * r.interval : Nat)) :
    (r.wholePeriod? start k).isSome ↔
      r.beginsInside start.date = true ∧ r.reaches start.date t.date = true := by
  cases hunit : r.frequency.unitSeconds? with
  | none =>
      rw [← isSome_span?_iff hunit h]
      simp only [wholePeriod?, hunit, spanPeriod?, Option.isSome_map]
  | some unit =>
      have htick : (r.wholePeriod? start k).isSome ↔
          ∃ tick, start.addSeconds? (unit * (k * r.interval)) = some tick := by
        rw [← Nat.mul_left_comm k]
        simp only [wholePeriod?, hunit, tickPeriod?, Option.isSome_map,
          Option.isSome_iff_exists]
      rw [unitNumber_eq_div hunit, unitNumber_eq_div hunit] at h
      rw [htick, exists_tick_iff hunit h, reaches_iff_of_unitSeconds? hunit,
        iff_true_intro (beginsInside_of_unitSeconds? hunit start.date), true_and]

/-- Periods with the same datetimes offer the same to set positions, also where one of them
is cut off as a whole. -/
theorem select_wholeOffer_eq_filter {s : Rule} {start' : DateTime} {j : Nat} (names : List Int)
    {keep : DateTime → Bool}
    (hmem : ∀ t, t ∈ r.wholeOffer start k ↔ t ∈ s.wholeOffer start' j ∧ keep t = true)
    (hkeep : ∀ t ∈ s.wholeOffer start' j, ∀ u ∈ s.wholeOffer start' j, keep t = keep u) :
    Position.select names (r.wholeOffer start k) =
      (Position.select names (s.wholeOffer start' j)).filter keep := by
  have hoffer : r.wholeOffer start k = (s.wholeOffer start' j).filter keep := by
    apply (r.wholeOffer_ascends start k).eq_of_mem_iff
      ((s.wholeOffer_ascends start' j).filter keep)
    intro t
    rw [List.mem_filter]
    exact hmem t
  rw [hoffer, Position.select_filter hkeep]

end Rule
end Timetable
