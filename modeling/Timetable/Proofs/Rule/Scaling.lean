import Timetable.Proofs.Rule.Frequencies

/-!
# Intervals in other units

Sixty seconds are a minute, and twelve months a year.  A rule that repeats every so many of
the smaller units, and lists nothing that is read differently, gives the same sequence as
the rule that repeats every so many of the larger ones, whatever its ending, its set
positions and its other lists: `scaled_units_agree`.

For each pair of units the periods with the same number hold the same datetimes
(`mem_wholeOffer_minutely_iff` and the like).
-/

namespace Timetable

open Civil

namespace Rule

variable {r s : Rule} {start t : DateTime} {k : Nat}

/-- The same rule with `n` times the interval. -/
def scaled (r : Rule) (n : Nat) (hn : 0 < n := by decide) : Rule :=
  { r with interval := n * r.interval, interval_pos := Nat.mul_pos hn r.interval_pos }

/-! ## Rules with the same periods -/

/-- If every period of a rule holds what the period of another one holds, or nothing from
some date on, so does the whole sequence. -/
theorem toList_occurrences_eq_filter_of_wholeOffers {keep : DateTime → Bool}
    (hpositions : r.setPositions = s.setPositions) (hending : r.ending = s.ending)
    (hmem : ∀ k t, t ∈ r.wholeOffer start k ↔ t ∈ s.wholeOffer start k ∧ keep t = true)
    (huniform : ∀ k, ∀ t ∈ s.wholeOffer start k, ∀ u ∈ s.wholeOffer start k, keep t = keep u)
    (hkeep : ∀ a b, a ≤ b → keep b = true → keep a = true)
    (hticks : ∀ k t, t ∈ r.wholeOffer start k → r.tickOf start t = s.tickOf start t) :
    (r.occurrences start).toList = (s.occurrences start).toList.filter keep := by
  apply toList_occurrences_eq_filter
  · rw [offers, offers, List.filter_flatMap]
    apply List.flatMap_congr
    intro k _
    rw [offer_eq_select_wholeOffer, offer_eq_select_wholeOffer, hpositions,
      select_wholeOffer_eq_filter s.setPositions (hmem k) (huniform k), List.filter_comm]
  · exact hkeep
  · exact hending
  · intro _ t ht
    obtain ⟨k, hk⟩ := mem_offers_iff.mp ht
    exact hticks k t (mem_wholeOffer_of_mem_offer hk)

theorem toList_occurrences_eq_of_wholeOffers
    (hpositions : r.setPositions = s.setPositions) (hending : r.ending = s.ending)
    (hmem : ∀ k t, t ∈ r.wholeOffer start k ↔ t ∈ s.wholeOffer start k)
    (hticks : ∀ k t, t ∈ r.wholeOffer start k → r.tickOf start t = s.tickOf start t) :
    (r.occurrences start).toList = (s.occurrences start).toList := by
  have hall : (s.occurrences start).toList.filter (fun _ => true) =
      (s.occurrences start).toList :=
    List.filter_eq_self.mpr fun _ _ => rfl
  rw [← hall]
  exact toList_occurrences_eq_filter_of_wholeOffers hpositions hending (by simpa using hmem)
    (fun _ _ _ _ _ => rfl) (fun _ _ _ _ => rfl) hticks

/-- Where nothing finer than the frequency is listed, ticks are not expanded. -/
theorem tickOf_eq_self_of_mem_wholeOffer (ht : t ∈ r.wholeOffer start k)
    (hseconds : r.seconds = []) (hminutes : r.frequency = .hourly → r.minutes = []) :
    r.tickOf start t = t := by
  have h : r.admitsTime start.time t.time = true := (mem_wholeOffer_iff.mp ht).2.2.2.2
  unfold admitsTime at h
  unfold tickOf
  cases hfrequency : r.frequency
  case hourly =>
    simp only [hfrequency, hseconds, hminutes hfrequency, admitsComponent, List.isEmpty_nil,
      if_true, reduceCtorEq, decide_false, Bool.false_or, Bool.and_eq_true,
      decide_eq_true_eq] at h
    obtain ⟨⟨⟨-, hminute⟩, hsecond⟩, hnano⟩ := h
    dsimp only
    rw [← hminute, ← hsecond, ← hnano, Time.ofClock?_components, Option.getD_some]
  case minutely =>
    simp only [hfrequency, hseconds, admitsComponent, List.isEmpty_nil, if_true, reduceCtorEq,
      decide_false, Bool.false_or, Bool.and_eq_true, decide_eq_true_eq] at h
    obtain ⟨⟨-, hsecond⟩, hnano⟩ := h
    dsimp only
    rw [← hsecond, ← hnano, Time.ofClock?_components, Option.getD_some]
  all_goals rfl

/-- A unit of one rule may be the part of a unit of another one that agrees with the start
in something finer.  If the other rule's lists ask for that too, the periods hold the same
datetimes, as far as the first rule reaches. -/
theorem mem_wholeOffer_iff_of_units {agrees : Prop}
    (hinside : r.beginsInside start.date = s.beginsInside start.date)
    (hreaches : r.reaches start.date t.date = true → s.reaches start.date t.date = true)
    (hunits : r.unitNumber t = r.unitNumber start + (k * r.interval : Nat) ↔
      s.unitNumber t = s.unitNumber start + (k * s.interval : Nat) ∧ agrees)
    (hlists : s.selects start.date t.date = true ∧ s.admitsTime start.time t.time = true ↔
      r.selects start.date t.date = true ∧ r.admitsTime start.time t.time = true ∧ agrees) :
    t ∈ r.wholeOffer start k ↔
      t ∈ s.wholeOffer start k ∧ r.reaches start.date t.date = true := by
  rw [mem_wholeOffer_iff, mem_wholeOffer_iff, hinside, hunits, hlists]
  constructor
  · rintro ⟨hin, hreach, ⟨hunit, hagrees⟩, hselected, htime⟩
    exact ⟨⟨hin, hreaches hreach, hunit, hselected, htime, hagrees⟩, hreach⟩
  · rintro ⟨⟨hin, -, hunit, hselected, htime, hagrees⟩, hreach⟩
    exact ⟨hin, hreach, ⟨hunit, hagrees⟩, hselected, htime⟩

/-- Where both rules reach equally far, the periods hold the same. -/
theorem mem_wholeOffer_iff_of_reaches {a b : Rule}
    (h : t ∈ a.wholeOffer start k ↔
      t ∈ b.wholeOffer start k ∧ a.reaches start.date t.date = true)
    (hreaches : b.reaches start.date t.date = true → a.reaches start.date t.date = true) :
    t ∈ a.wholeOffer start k ↔ t ∈ b.wholeOffer start k :=
  h.trans (and_iff_left_of_imp fun hb => hreaches (mem_wholeOffer_iff.mp hb).2.1)

/-! ## One pair of units after the other -/

/-- Every sixty seconds is every minute, at the start's second. -/
theorem mem_wholeOffer_minutely_iff (hseconds : r.seconds = []) :
    t ∈ ((r.scaled 60).withFrequency .secondly).wholeOffer start k ↔
      t ∈ (r.withFrequency .minutely).wholeOffer start k := by
  have hunits : t.wholeSeconds = start.wholeSeconds + (k * (60 * r.interval) : Nat) ↔
      t.wholeSeconds / 60 = start.wholeSeconds / 60 + (k * r.interval : Nat) ∧
        t.time.second = start.time.second := by
    rw [Nat.mul_left_comm]
    simp only [DateTime.wholeSeconds, Time.second]
    omega
  have hselects : ((r.scaled 60).withFrequency .secondly).selects start.date t.date =
      (r.withFrequency .minutely).selects start.date t.date :=
    selects_withFrequency_eq (.inr rfl) (.inr fun _ => rfl) t.date
  have htimes : (r.withFrequency .minutely).admitsTime start.time t.time = true ↔
      ((r.scaled 60).withFrequency .secondly).admitsTime start.time t.time = true ∧
        t.time.second = start.time.second := by
    simp [admitsTime, withFrequency, scaled, hseconds, admitsComponent, and_right_comm]
  apply mem_wholeOffer_iff_of_reaches
  · refine mem_wholeOffer_iff_of_units rfl id hunits ?_
    rw [hselects, htimes]
  · exact id

/-- Every sixty minutes is every hour, at the start's minute and second. -/
theorem mem_wholeOffer_hourly_iff (hminutes : r.minutes = []) (hseconds : r.seconds = []) :
    t ∈ ((r.scaled 60).withFrequency .minutely).wholeOffer start k ↔
      t ∈ (r.withFrequency .hourly).wholeOffer start k := by
  have hunits :
      t.wholeSeconds / 60 = start.wholeSeconds / 60 + (k * (60 * r.interval) : Nat) ↔
      t.wholeSeconds / 3600 = start.wholeSeconds / 3600 + (k * r.interval : Nat) ∧
        t.time.minute = start.time.minute := by
    rw [Nat.mul_left_comm]
    simp only [DateTime.wholeSeconds, Time.minute]
    omega
  have hselects : ((r.scaled 60).withFrequency .minutely).selects start.date t.date =
      (r.withFrequency .hourly).selects start.date t.date :=
    selects_withFrequency_eq (.inr rfl) (.inr fun _ => rfl) t.date
  have htimes : (r.withFrequency .hourly).admitsTime start.time t.time = true ↔
      ((r.scaled 60).withFrequency .minutely).admitsTime start.time t.time = true ∧
        t.time.minute = start.time.minute := by
    simp [admitsTime, withFrequency, scaled, hminutes, hseconds, admitsComponent,
      and_right_comm]
  apply mem_wholeOffer_iff_of_reaches
  · refine mem_wholeOffer_iff_of_units rfl id hunits ?_
    rw [hselects, htimes]
  · exact id

/-- Every twenty-four hours is every day, at the start's time, as far as hours reach. -/
theorem mem_wholeOffer_daily_iff (hhours : r.hours = []) (hminutes : r.minutes = [])
    (hseconds : r.seconds = []) :
    t ∈ ((r.scaled 24).withFrequency .hourly).wholeOffer start k ↔
      t ∈ (r.withFrequency .daily).wholeOffer start k ∧
        (r.withFrequency .hourly).reaches start.date t.date = true := by
  have hunits :
      t.wholeSeconds / 3600 = start.wholeSeconds / 3600 + (k * (24 * r.interval) : Nat) ↔
      t.date.number = start.date.number + (k * r.interval : Nat) ∧
        t.time.hour = start.time.hour := by
    have ht := t.time.secondOfDay_lt
    have hstart := start.time.secondOfDay_lt
    rw [Nat.mul_left_comm]
    simp only [DateTime.wholeSeconds, Time.hour]
    omega
  have hselects : ((r.scaled 24).withFrequency .hourly).selects start.date t.date =
      (r.withFrequency .daily).selects start.date t.date :=
    selects_withFrequency_eq (.inr rfl) (.inr fun _ => rfl) t.date
  have htimes : (r.withFrequency .daily).admitsTime start.time t.time = true ↔
      ((r.scaled 24).withFrequency .hourly).admitsTime start.time t.time = true ∧
        t.time.hour = start.time.hour := by
    simp [admitsTime, withFrequency, scaled, hhours, hminutes, hseconds, admitsComponent,
      and_assoc, and_left_comm, and_comm]
  refine mem_wholeOffer_iff_of_units rfl (fun _ => rfl) hunits ?_
  rw [hselects, htimes]

theorem listsDays_of_eq_nil (hyearDays : r.yearDays = []) (hmonthDays : r.monthDays = [])
    (hweekdays : r.weekdays = []) : r.listsDays = false :=
  listsDays_eq_false_iff.mpr ⟨hyearDays, hmonthDays, hweekdays⟩

/-- Every seven days is every week, on the start's day of the week. -/
theorem mem_wholeOffer_weekly_iff (hweek : r.weekStart = .monday)
    (hlists : r.listsDays = false) :
    t ∈ ((r.scaled 7).withFrequency .daily).wholeOffer start k ↔
      t ∈ (r.withFrequency .weekly).wholeOffer start k := by
  have hinside := beginsInside_of_monday (r := r.withFrequency .weekly) hweek start.date
  have hunits : t.date.number = start.date.number + (k * (7 * r.interval) : Nat) ↔
      (t.date.number + 6 - r.weekStart.number) / 7 =
          (start.date.number + 6 - r.weekStart.number) / 7 + (k * r.interval : Nat) ∧
        t.date.weekday = start.date.weekday := by
    rw [Nat.mul_left_comm, Date.weekday_eq_iff]
    omega
  have hselects : (r.withFrequency .weekly).selects start.date t.date = true ↔
      ((r.scaled 7).withFrequency .daily).selects start.date t.date = true ∧
        t.date.weekday = start.date.weekday := by
    have hdaily : ((r.scaled 7).withFrequency .daily).listsDays = false := hlists
    have hweekly : (r.withFrequency .weekly).listsDays = false := hlists
    rw [selects, selects, hdaily, hweekly]
    simp [isStartDay, withFrequency, scaled, admitsMonth]
  apply mem_wholeOffer_iff_of_reaches
  · refine mem_wholeOffer_iff_of_units hinside.symm id hunits ?_
    rw [hselects, and_assoc, and_comm (a := t.date.weekday = start.date.weekday)]
    rfl
  · exact id

/-- Every twelve months is every year, in the start's month. -/
theorem mem_wholeOffer_yearly_iff (hmonths : r.months = []) (hlists : r.listsDays = false) :
    t ∈ ((r.scaled 12).withFrequency .monthly).wholeOffer start k ↔
      t ∈ (r.withFrequency .yearly).wholeOffer start k := by
  have hpos := t.date.month.one_le_number
  have hle := t.date.month.number_le
  have hpos' := start.date.month.one_le_number
  have hle' := start.date.month.number_le
  have hunits : t.date.yearMonth.index =
        start.date.yearMonth.index + (k * (12 * r.interval) : Nat) ↔
      t.date.year = start.date.year + (k * r.interval : Nat) ∧
        t.date.month = start.date.month := by
    have hsame : t.date.month = start.date.month ↔
        t.date.month.number = start.date.month.number :=
      ⟨fun h => by rw [h], Month.number_injective⟩
    rw [Nat.mul_left_comm, hsame, YearMonth.index, YearMonth.index, Date.yearMonth_year,
      Date.yearMonth_year]
    simp only [Date.month] at *
    omega
  have hselects : (r.withFrequency .yearly).selects start.date t.date = true ↔
      ((r.scaled 12).withFrequency .monthly).selects start.date t.date = true ∧
        t.date.month = start.date.month := by
    have hmonthly : ((r.scaled 12).withFrequency .monthly).listsDays = false := hlists
    have hyearly : (r.withFrequency .yearly).listsDays = false := hlists
    rw [selects, selects, hmonthly, hyearly]
    simp [isStartDay, withFrequency, scaled, admitsMonth, hmonths, and_comm]
  have hiff : t ∈ ((r.scaled 12).withFrequency .monthly).wholeOffer start k ↔
      t ∈ (r.withFrequency .yearly).wholeOffer start k ∧
        ((r.scaled 12).withFrequency .monthly).reaches start.date t.date = true := by
    refine mem_wholeOffer_iff_of_units rfl (fun _ => rfl) hunits ?_
    rw [hselects, and_assoc, and_comm (a := t.date.month = start.date.month)]
    rfl
  rw [hiff, and_iff_left_iff_imp]
  -- The calendar has fewer years than single steps of months can cover.
  intro ht
  obtain ⟨-, -, hyear, hselected, -⟩ := mem_wholeOffer_iff.mp ht
  have hindex := hunits.mpr ⟨hyear, (hselects.mp hselected).2⟩
  have hfirst := start.date.le_year
  have hlast := t.date.year_le
  have hgreatest : YearMonth.greatestShift = 239976 := rfl
  simp only [unitNumber, withFrequency] at hyear
  rw [Nat.mul_left_comm] at hindex
  apply decide_eq_true
  omega

/-- Hours instead of days give the same sequence as far as hours reach. -/
theorem occurrencesAt_scaled_hourly_eq_filter (hhours : r.hours = []) (hminutes : r.minutes = [])
    (hseconds : r.seconds = []) (start : DateTime) :
    (r.scaled 24).occurrencesAt .hourly start =
      (r.occurrencesAt .daily start).filter fun t =>
        (r.withFrequency .hourly).reaches start.date t.date := by
  refine toList_occurrences_eq_filter_of_wholeOffers rfl rfl ?_ ?_ ?_ ?_
  · intro k t
    exact mem_wholeOffer_daily_iff hhours hminutes hseconds
  · -- A day is a single date, so it is reached as a whole or not at all.
    intro k t ht u hu
    have hday : t.date.number = u.date.number :=
      (mem_wholeOffer_iff.mp ht).2.2.1.trans (mem_wholeOffer_iff.mp hu).2.2.1.symm
    rw [Date.ext_number hday]
  · intro a b hab
    exact reaches_mono (Int.le_refl _) (DateTime.number_le_of_le hab)
  · intro k t ht
    rw [tickOf_eq_self_of_mem_wholeOffer ht hseconds fun _ => hminutes]
    rfl

/-! ## All pairs of units -/

/-- Rules that repeat every so many of a unit, or every so many of the units that it is made
of, give the same sequence, with any ending, set positions and further lists: seconds and
minutes if no second is listed, minutes and hours if no minute is either, hours and days if
no hour is either, days and weeks that begin on Mondays if no day is listed, months and
years if no month is either.

Hours reach less far than days in one step.  As far as they reach the two sequences are the
same, and if single steps from the start are exact, that is everywhere. -/
theorem scaled_units_agree (r : Rule) (start : DateTime) :
    (r.seconds = [] →
      (r.scaled 60).occurrencesAt .secondly start = r.occurrencesAt .minutely start) ∧
    (r.minutes = [] → r.seconds = [] →
      (r.scaled 60).occurrencesAt .minutely start = r.occurrencesAt .hourly start) ∧
    (r.hours = [] → r.minutes = [] → r.seconds = [] →
      (r.scaled 24).occurrencesAt .hourly start =
        (r.occurrencesAt .daily start).filter (fun t =>
          (r.withFrequency .hourly).reaches start.date t.date) ∧
      (start.ExactFrom →
        (r.scaled 24).occurrencesAt .hourly start = r.occurrencesAt .daily start)) ∧
    (r.weekStart = .monday → r.yearDays = [] → r.monthDays = [] → r.weekdays = [] →
      (r.scaled 7).occurrencesAt .daily start = r.occurrencesAt .weekly start) ∧
    (r.months = [] → r.yearDays = [] → r.monthDays = [] → r.weekdays = [] →
      (r.scaled 12).occurrencesAt .monthly start = r.occurrencesAt .yearly start) := by
  -- Apart from hours against days, both rules offer the same datetimes in every period.
  refine ⟨?_, ?_, ?_, ?_, ?_⟩
  · intro hseconds
    refine toList_occurrences_eq_of_wholeOffers rfl rfl ?_ ?_
    · intro k t
      exact mem_wholeOffer_minutely_iff hseconds
    · intro k t ht
      have ht' := (mem_wholeOffer_minutely_iff hseconds).mp ht
      rw [tickOf_eq_self_of_mem_wholeOffer ht' hseconds nofun]
      rfl
  · intro hminutes hseconds
    refine toList_occurrences_eq_of_wholeOffers rfl rfl ?_ ?_
    · intro k t
      exact mem_wholeOffer_hourly_iff hminutes hseconds
    · intro k t ht
      have ht' := (mem_wholeOffer_hourly_iff hminutes hseconds).mp ht
      rw [tickOf_eq_self_of_mem_wholeOffer ht hseconds nofun,
        tickOf_eq_self_of_mem_wholeOffer ht' hseconds fun _ => hminutes]
  · intro hhours hminutes hseconds
    -- An hourly rule adds seconds to its start, so it may stop before the daily one does.
    have hfilter := occurrencesAt_scaled_hourly_eq_filter hhours hminutes hseconds start
    refine ⟨hfilter, ?_⟩
    intro hexact
    rw [hfilter, List.filter_eq_self]
    intro t ht
    exact reaches_of_exactFrom hexact
      (DateTime.number_le_of_le (start_le_of_mem_toList_occurrences ht))
  · intro hweek hyearDays hmonthDays hweekdays
    refine toList_occurrences_eq_of_wholeOffers rfl rfl ?_ ?_
    · intro k t
      exact mem_wholeOffer_weekly_iff hweek (listsDays_of_eq_nil hyearDays hmonthDays hweekdays)
    · intro k t _
      rfl
  · intro hmonths hyearDays hmonthDays hweekdays
    refine toList_occurrences_eq_of_wholeOffers rfl rfl ?_ ?_
    · intro k t
      exact mem_wholeOffer_yearly_iff hmonths (listsDays_of_eq_nil hyearDays hmonthDays hweekdays)
    · intro k t _
      rfl

/-- Three times every other unit, the last of what there is in each. -/
def everyOther : Rule :=
  { frequency := .yearly, interval := 2, ending := some (.count 3), weekStart := .monday,
    months := [], yearDays := [], monthDays := [], weekdays := [], hours := [], minutes := [],
    seconds := [], setPositions := [-1], interval_pos := Nat.two_pos }

/-- The evening of the leap day of 2024. -/
def leapEvening : DateTime :=
  (DateTime.ofReading? 2024 2 29 18 0 0 0).get (by decide)

/-- Every twenty-four months from a leap day, on the last day of February, and all the pairs
of units from there. -/
theorem everyOther_scaled_agrees :
    ((everyOther.scaled 12).occurrencesAt .monthly leapEvening).map (fun t =>
        (t.date.year, t.date.day)) = [(2024, 29), (2026, 28), (2028, 29)] ∧
      (everyOther.scaled 60).occurrencesAt .secondly leapEvening =
        everyOther.occurrencesAt .minutely leapEvening ∧
      (everyOther.scaled 60).occurrencesAt .minutely leapEvening =
        everyOther.occurrencesAt .hourly leapEvening ∧
      leapEvening.ExactFrom ∧
      (everyOther.scaled 24).occurrencesAt .hourly leapEvening =
        everyOther.occurrencesAt .daily leapEvening ∧
      (everyOther.scaled 7).occurrencesAt .daily leapEvening =
        everyOther.occurrencesAt .weekly leapEvening ∧
      (everyOther.scaled 12).occurrencesAt .monthly leapEvening =
        everyOther.occurrencesAt .yearly leapEvening := by
  have hexact : leapEvening.ExactFrom := DateTime.exactFrom_of_year (by decide)
  obtain ⟨hminutely, hhourly, hdaily, hweekly, hyearly⟩ :=
    scaled_units_agree everyOther leapEvening
  exact ⟨by decide +kernel, hminutely rfl, hhourly rfl rfl, hexact,
    (hdaily rfl rfl rfl).2 hexact, hweekly rfl rfl rfl rfl, hyearly rfl rfl rfl rfl⟩

end Rule
end Timetable
