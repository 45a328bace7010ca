import Timetable.Proofs.Machine.Ticks
import Timetable.Proofs.Rule.Weeks

/-!
# Days, weeks, months and years with machine numbers

The distance of a period from the start fits a word wherever the calendar has the period:
`distance_le_of_span?`.  Then the dates that the lists give are those of the period that the rule
selects, one lemma for each frequency, and `evaluates_expandDates` takes them to their times.
-/

namespace Timetable
namespace Machine

open Civil

variable {r : Rule} {start floor : DateTime} {first d : Date} {dates : List Date} {k days : Nat}

/-! ## Periods inside the calendar -/

/-- No period of the calendar is farther from the start than the calendar has days. -/
theorem distance_le_of_span? {first : Date} {q : Date × Nat} (h : r.span? first k = some q) :
    k * r.interval ≤ 10000000 := by
  have hfirst := first.first_le
  have hyear := first.le_year
  -- In each unit the calendar bounds the distance: by its days, its months or its years.
  simp only [Rule.span?] at h
  split at h
  next =>
    simp only [Option.bind_eq_bind, Option.bind_eq_some_iff, Option.pure_def,
      Option.some.injEq, Date.addDays?_eq_some_iff] at h
    obtain ⟨week, hweek, begin, hnumber, -⟩ := h
    have hlast := begin.le_last
    have hseven := first.weekday.daysSince_lt r.weekStart
    omega
  next =>
    simp only [Option.bind_eq_bind, Option.bind_eq_some_iff, YearMonth.later?,
      Option.ite_none_right_eq_some] at h
    obtain ⟨month, ⟨hshift, -⟩, -⟩ := h
    exact hshift.trans (by decide)
  next =>
    simp only [Option.map_eq_some_iff, Date.ofDay?_eq_some_iff] at h
    obtain ⟨begin, ⟨hmonth, -⟩, -⟩ := h
    have hlast := begin.year_le
    rw [← Date.yearMonth_year, hmonth] at hlast
    dsimp only at hlast
    omega
  next =>
    simp only [Option.map_eq_some_iff, Date.addDays?_eq_some_iff] at h
    obtain ⟨day, hnumber, -⟩ := h
    have hlast := day.le_last
    omega

theorem distance_le_of_spanPeriod? {p : Period} (h : r.spanPeriod? start k = some p) :
    k * r.interval ≤ 10000000 := by
  obtain ⟨first, days, hspan, -⟩ := Rule.spanPeriod?_cases h
  exact distance_le_of_span? hspan

theorem index_le_of_span? {first : Date} {q : Date × Nat} (h : r.span? first k = some q) :
    k ≤ 10000000 :=
  (Nat.le_mul_of_pos_right k r.interval_pos).trans (distance_le_of_span? h)

theorem mem_datetimesOn_iff_mem_listedOr (hunit : r.frequency.unitSeconds? = none)
    {own : Time} {t : DateTime} :
    t ∈ r.datetimesOn own t.date ↔ t.time.hour ∈ Rule.listedOr r.hours own.hour ∧
      t.time.minute ∈ Rule.listedOr r.minutes own.minute ∧
      t.time.second ∈ Rule.listedOr r.seconds own.second ∧
      t.time.nanosecond = own.nanosecond := by
  obtain ⟨hsecondly, hminutely, hhourly⟩ := Frequency.unitSeconds?_eq_none_iff.mp hunit
  rw [Rule.mem_datetimesOn_iff_admitsTime hunit]
  simp only [Rule.admitsTime, hsecondly, hminutely, hhourly, decide_false, Bool.or_false,
    Bool.and_eq_true, decide_eq_true_eq, Rule.admitsComponent_iff_mem_listedOr, and_assoc]

theorem evaluates_leadOn (hspan : r.span? start.date k = some (first, days))
    {candidates : List DateTime} {jump : Nat} (hjump : r.advance first = jump)
    (hsmall : jump ≤ 10000000)
    (hcandidates : ∀ t, t ∈ candidates ↔
      (first.number ≤ t.date.number ∧ t.date.number < first.number + days) ∧
        r.selects start.date t.date = true ∧ t ∈ r.datetimesOn start.time t.date) :
    Evaluates (r.spanPeriod? start) k
      (pure (leadOn (DateTime.midnightOf first) candidates k jump)) := by
  have hk := index_le_of_span? hspan
  obtain ⟨p, hp⟩ : ∃ p, r.spanPeriod? start k = some p := by
    rw [Rule.spanPeriod?, hspan]
    exact ⟨_, rfl⟩
  obtain ⟨first', days', hspan', hfloor, -, hfollowing⟩ := Rule.spanPeriod?_cases hp
  obtain ⟨rfl, rfl⟩ := Prod.mk.inj (Option.some.inj (hspan.symm.trans hspan'))
  rw [hjump] at hfollowing
  rw [leadOn_eq_some _ candidates (by omega), ← hfloor, ← hfollowing]
  refine .period hp fun t => ?_
  rw [hcandidates, Rule.mem_candidates_of_spanPeriod? hp hspan, and_assoc]

/-- A period of which the rule selects nothing. -/
theorem evaluates_leadOn_nil (hspan : r.span? start.date k = some (first, days)) {jump : Nat}
    (hjump : r.advance first = jump) (hsmall : jump ≤ 10000000)
    (hrefused : ∀ d : Date, first.number ≤ d.number → d.number < first.number + days →
      r.selects start.date d = false) :
    Evaluates (r.spanPeriod? start) k (pure (leadOn (DateTime.midnightOf first) [] k jump)) := by
  refine evaluates_leadOn hspan hjump hsmall fun t => ?_
  simp only [List.not_mem_nil, false_iff, not_and]
  rintro ⟨hle, hlt⟩ hselects
  rw [hrefused t.date hle hlt] at hselects
  contradiction

/-- The dates of a period that the rule selects, at the times of its lists. -/
theorem evaluates_expandDates (hranges : r.WithinRanges)
    (hunit : r.frequency.unitSeconds? = none) (hspan : r.span? start.date k = some (first, days))
    (hadvance : r.advance first = 1)
    (hdates : ∀ d, d ∈ dates ↔ (first.number ≤ d.number ∧ d.number < first.number + days) ∧
      r.selects start.date d = true) :
    Evaluates (r.spanPeriod? start) k
      (expandDates r start (DateTime.midnightOf first) dates k) := by
  obtain ⟨candidates, hcandidates, hmem⟩ := gathers_expandTimes dates
    (fun v hv => (hranges.hours v hv).trans (by decide))
    (fun v hv => (hranges.minutes v hv).trans (by decide))
    (fun v hv => (hranges.seconds v hv).trans (by decide)) start.time
  rw [expandDates, hcandidates, pure_bind]
  refine evaluates_leadOn hspan hadvance (by decide) fun t => ?_
  rw [hmem]
  dsimp only
  rw [hdates, ← mem_datetimesOn_iff_mem_listedOr hunit, and_assoc]

theorem advance_of_ne_daily (hfrequency : r.frequency ≠ .daily) (first : Date) :
    r.advance first = 1 := by
  rw [Rule.advance, decide_eq_false hfrequency, Bool.false_and, if_neg Bool.false_ne_true]

/-- The distance of a period of the calendar from the start passes its check. -/
theorem evaluates_of_distance {x : Machine (Option Step)} {f : Int → Machine (Option Step)}
    (hx : x = (Word.signed64.fit? (k * r.interval)).elim (pure none) f)
    (hf : Evaluates (r.spanPeriod? start) k (f (k * r.interval : Nat))) :
    Evaluates (r.spanPeriod? start) k x := by
  refine evaluates_of_fit? hx (fun p hp => ?_) (Int.natCast_mul k r.interval ▸ hf)
  have hdistance := distance_le_of_spanPeriod? hp
  rw [← Int.natCast_mul]
  exact Word.holds_signed64_iff.mpr (by omega)

/-- Where the calendar has no such date there is no period. -/
theorem evaluates_of_lookup {α : Type} {date? : Option α} {g : α → Date × Nat}
    {x : Machine (Option Step)} {f : α → Machine (Option Step)}
    (hspan : r.span? start.date k = date?.map g) (hx : x = date?.elim (pure none) f)
    (hf : ∀ a, date? = some a → r.span? start.date k = some (g a) →
      Evaluates (r.spanPeriod? start) k (f a)) :
    Evaluates (r.spanPeriod? start) k x := by
  subst hx
  cases hdate : date? with
  | none =>
      rw [hdate, Option.map_none] at hspan
      refine .outside ?_
      rw [Rule.spanPeriod?, hspan, Option.map_none]
  | some a =>
      rw [hdate, Option.map_some] at hspan
      exact hf a hdate hspan

/-! ## Days -/

theorem periodsLeft_eq (hranges : r.WithinRanges) (d : Date) :
    periodsLeft d r.interval =
      pure (Rule.stepsTo (d.yearMonth.length - d.day + 1) r.interval : Int) := by
  have hinterval := hranges.interval
  have hlength := d.yearMonth.length_le
  have hday := d.day_le_length
  have hfirst := d.one_le_day
  have hremaining : (d.yearMonth.length : Int) - d.day + 1 + r.interval - 1 =
      (d.yearMonth.length - d.day + 1 + r.interval - 1 : Nat) := by
    omega
  rw [periodsLeft, Word.sub_of_holds (Word.holds_signed8_iff.mpr (by omega)), pure_bind,
    Word.add_of_holds (Word.holds_signed64_iff.mpr (by omega)), pure_bind,
    Word.add_of_holds (Word.holds_signed64_iff.mpr (by omega)), pure_bind,
    Word.sub_of_holds (Word.holds_signed64_iff.mpr (by omega)), pure_bind, hremaining,
    Word.quot_natCast r.interval_pos (by decide) (by
      show (_ : Int) ≤ 9223372036854775807
      omega), Rule.stepsTo]

theorem span?_of_daily (hfrequency : r.frequency = .daily) :
    r.span? d k = (d.addDays? (k * r.interval : Nat)).map fun day => (day, 1) := by
  simp only [Rule.span?, hfrequency]

theorem evaluates_dailyStep (hvalid : r.Valid) (hranges : r.WithinRanges)
    (hfrequency : r.frequency = .daily) (start : DateTime) (k : Nat) :
    Evaluates (r.spanPeriod? start) k (dailyStep r start k) := by
  have hunit : r.frequency.unitSeconds? = none := congrArg Frequency.unitSeconds? hfrequency
  unfold dailyStep
  apply evaluates_of_distance
  · cases Word.signed64.fit? (k * r.interval) <;> rfl
  apply evaluates_of_lookup (span?_of_daily hfrequency)
  · cases start.date.addDays? (k * r.interval : Nat) <;> rfl
  intro date hdate hspan
  -- A day is a period of one date.
  have hself {d : Date} (hle : date.number ≤ d.number) (hlt : d.number < date.number + 1) :
      d = date := Date.ext_number (by omega)
  have hselects := selects_eq_of_isStartDay (d := date)
    (hvalid.yearDays_eq_nil (by rw [hfrequency]; decide))
    (show r.isStartDay start.date date = true by rw [Rule.isStartDay, hfrequency])
  rw [matchesMonth_rule, pure_bind]
  cases hmonth : r.admitsMonth date.month with
  | false =>
      -- The jump to the next month is bounded by the month's length, so it fits its word.
      have hsteps := stepsTo_le (date.yearMonth.length - date.day + 1) r.interval_pos
      have hlength := date.yearMonth.length_le
      rw [Bool.not_false, if_pos rfl, periodsLeft_eq hranges, pure_bind]
      refine evaluates_leadOn_nil hspan ?_ (by omega) fun d hle hlt => ?_
      · rw [Rule.advance, hmonth, decide_eq_true hfrequency]
        rfl
      · rw [hself hle hlt, hselects, hmonth, Bool.false_and]
  | true =>
      have hadvance : r.advance date = 1 := by
        rw [Rule.advance, hmonth, Bool.not_true, Bool.and_false, if_neg Bool.false_ne_true]
      rw [hmonth, Bool.true_and] at hselects
      rw [Bool.not_true, if_neg Bool.false_ne_true, matchesMonthDay_eq hranges, pure_bind,
        matchesWeekday_eq (hvalid.ordinal_eq_none (by rw [hfrequency]; rfl)), ← Bool.not_and,
        ← hselects]
      cases hselect : r.selects start.date date with
      | true =>
          rw [Bool.not_true, if_neg Bool.false_ne_true]
          refine evaluates_expandDates hranges hunit hspan hadvance fun d => ?_
          rw [List.mem_singleton]
          constructor
          · rintro rfl
            exact ⟨⟨Int.le_refl _, Int.lt_succ _⟩, hselect⟩
          · rintro ⟨⟨hle, hlt⟩, -⟩
            exact hself hle hlt
      | false =>
          rw [Bool.not_false, if_pos rfl, ← Int.natCast_one]
          refine evaluates_leadOn_nil hspan hadvance (by decide) fun d hle hlt => ?_
          rw [hself hle hlt, hselect]

/-! ## Weeks -/

theorem daysSince_eq (d weekStart : Weekday) :
    daysSince d weekStart = pure (d.daysSince weekStart : Int) := by
  have hle := d.number_le
  have hpos := weekStart.one_le_number
  have hle' := weekStart.number_le
  have hdistance : (d.number : Int) + 7 - weekStart.number =
      (d.number + 7 - weekStart.number : Nat) := by
    omega
  rw [daysSince, Word.add_of_holds (Word.holds_unsigned8_iff.mpr (by omega)), pure_bind,
    Word.sub_of_holds (Word.holds_unsigned8_iff.mpr (by omega)), pure_bind, hdistance]
  exact Word.rem_natCast (by decide) (by decide) (by
    show (_ : Int) ≤ 255
    omega)

/-- Whole weeks after the day on which a date's week begins, weeks begin again. -/
theorem weekday_eq_weekStart {weekStart : Weekday} {week : Date} {weeks : Nat}
    (hweek : d.addDays? (-(d.weekday.daysSince weekStart : Int)) = some week)
    (hfirst : week.addDays? (7 * weeks : Nat) = some first) : first.weekday = weekStart := by
  have hsince := d.daysSince_weekday weekStart
  have hnumber := first.number_weekday
  have hpos := weekStart.one_le_number
  have hle := weekStart.number_le
  rw [Date.addDays?_eq_some_iff] at hweek hfirst
  exact Weekday.number_injective (by omega)

/-- In a week that begins with a date, the weekday is the distance from there. -/
theorem number_eq_add_daysSince_iff {weekStart w : Weekday} (hfirst : first.weekday = weekStart) :
    d.number = first.number + w.daysSince weekStart ↔
      (first.number ≤ d.number ∧ d.number < first.number + 7) ∧ d.weekday = w := by
  subst hfirst
  have hsince := d.daysSince_weekday first.weekday
  have hnumber := first.number_weekday
  have hlt := w.daysSince_lt first.weekday
  constructor
  · intro h
    refine ⟨⟨by omega, by omega⟩, Weekday.number_injective ?_⟩
    -- Both weekdays are equally far from the first one, and less than a week.
    have hdaysSince : d.weekday.daysSince first.weekday = w.daysSince first.weekday := by
      omega
    have hw := w.number_le
    have hw' := w.one_le_number
    have hd := d.weekday.number_le
    have hd' := d.weekday.one_le_number
    have hf := first.weekday.number_le
    simp only [Weekday.daysSince] at hdaysSince
    omega
  · rintro ⟨⟨hle, hlt⟩, rfl⟩
    omega

/-- The dates that a weekly rule selects are those of its months and weekdays. -/
theorem selects_iff_of_weekly (hvalid : r.Valid) (hfrequency : r.frequency = .weekly) :
    r.selects first d = true ↔ r.admitsMonth d.month = true ∧
      d.weekday ∈ if r.weekdays.isEmpty then [first.weekday]
        else r.weekdays.map WeekdaySelector.weekday := by
  have hyearDays := hvalid.yearDays_eq_nil (by rw [hfrequency]; decide)
  have hmonthDays := hvalid.monthDays_eq_nil hfrequency
  have hplain := hvalid.ordinal_eq_none (by rw [hfrequency]; rfl)
  have hownDay : r.isStartDay first d = true ↔ d.weekday = first.weekday := by
    rw [Rule.isStartDay, hfrequency, decide_eq_true_eq]
  rw [Rule.selects_iff_admits, Rule.admitsYearDay_iff_listsDay, Rule.admitsMonthDay_iff_listsDay,
    Rule.admitsWeekday_iff_listsWeekday, Rule.listsWeekday_iff_of_plain hplain,
    Rule.listsDays_eq_false_iff, hownDay]
  by_cases hweekdays : r.weekdays = []
  · simp [Rule.ListsDay, hyearDays, hmonthDays, hweekdays]
  · simp [Rule.ListsDay, hyearDays, hmonthDays, hweekdays]

theorem span?_of_weekly (hfrequency : r.frequency = .weekly) {week? : Option Date}
    (hweek : d.addDays? (-(d.weekday.daysSince r.weekStart : Int)) = week?) :
    r.span? d k = week?.bind fun week =>
      (week.addDays? (7 * (k * r.interval) : Nat)).map fun first => (first, 7) := by
  simp only [Rule.span?, hfrequency, hweek, Option.bind_eq_bind, Option.pure_def,
    Option.map_eq_bind, Function.comp_def]

theorem evaluates_weeklyStep (hvalid : r.Valid) (hranges : r.WithinRanges)
    (hfrequency : r.frequency = .weekly) (start : DateTime) (k : Nat) :
    Evaluates (r.spanPeriod? start) k (weeklyStep r start k) := by
  have hunit : r.frequency.unitSeconds? = none := congrArg Frequency.unitSeconds? hfrequency
  have hseven := start.date.weekday.daysSince_lt r.weekStart
  have hdays : ((k * r.interval : Nat) : Int) * 7 = (7 * (k * r.interval) : Nat) := by
    omega
  rw [weeklyStep, daysSince_eq, pure_bind,
    Word.sub_of_holds (Word.holds_signed64_iff.mpr (by omega)), pure_bind, Int.zero_sub]
  cases hweek : start.date.addDays? (-(start.date.weekday.daysSince r.weekStart : Int)) with
  | none =>
      refine .outside ?_
      rw [Rule.spanPeriod?, span?_of_weekly hfrequency hweek, Option.bind_none, Option.map_none]
  | some week =>
      have hspan := (span?_of_weekly (k := k) hfrequency hweek).trans (Option.bind_some _ _)
      apply evaluates_of_distance
      · cases Word.signed64.fit? (k * r.interval) <;> rfl
      apply evaluates_of_fit? (w := .signed64) (n := (7 * (k * r.interval) : Nat))
      · rw [hdays]
        cases Word.signed64.fit? (7 * (k * r.interval) : Nat) <;> rfl
      · intro p hp
        have hdistance := distance_le_of_spanPeriod? hp
        exact Word.holds_signed64_iff.mpr (by omega)
      apply evaluates_of_lookup hspan
      · cases week.addDays? (7 * (k * r.interval) : Nat) <;> rfl
      intro first hfirst hspan
      rw [mapM_of_forall_mem fun w _ => daysSince_eq w r.weekStart, pure_bind,
        filterM_of_forall_mem fun d _ => matchesMonth_rule r d, pure_bind]
      refine evaluates_expandDates hranges hunit hspan
        (advance_of_ne_daily (by rw [hfrequency]; decide) first) fun d => ?_
      have hbegin := weekday_eq_weekStart hweek hfirst
      rw [List.mem_filter, List.mem_filterMap, selects_iff_of_weekly hvalid hfrequency]
      simp only [List.mem_map, Date.addDays?_eq_some_iff]
      -- Inside the week a weekday is named by its distance from the first day.
      constructor
      · rintro ⟨⟨-, ⟨w, hw, rfl⟩, hnumber⟩, hmonth⟩
        obtain ⟨hinside, rfl⟩ := (number_eq_add_daysSince_iff hbegin).mp hnumber
        exact ⟨hinside, hmonth, hw⟩
      · rintro ⟨hinside, hmonth, hw⟩
        exact ⟨⟨_, ⟨_, hw, rfl⟩, (number_eq_add_daysSince_iff hbegin).mpr ⟨hinside, rfl⟩⟩, hmonth⟩

/-! ## Months -/

/-- The days from the first day of a month on. -/
theorem inside_month_iff {month : YearMonth} (hfirst : Date.ofDay? month 1 = some first) :
    first.number ≤ d.number ∧ d.number < first.number + month.length ↔ d.yearMonth = month := by
  obtain ⟨hmonth, hday⟩ := Date.ofDay?_eq_some_iff.mp hfirst
  have hnumber : first.number = month.firstDay := by
    rw [first.number_eq, hmonth, hday]
    exact Int.add_zero _
  rw [hnumber]
  constructor
  · rintro ⟨hle, hlt⟩
    exact Date.yearMonth_eq hle hlt
  · rintro rfl
    exact ⟨d.firstDay_le_number, d.number_lt_firstDay_add_length⟩

/-- A day or else the last day of a month that the calendar has. -/
theorem exists_day_or_last (month : YearMonth) (hleast : -9999 ≤ month.year)
    (hgreatest : month.year ≤ 9999) {day : Nat} (hday : 1 ≤ day) :
    ∃ date, Date.ofDay? month (min day month.length) = some date ∧
      ∀ d : Date, d = date ↔ d.yearMonth = month ∧ d.day = min day month.length := by
  obtain ⟨date, hdate⟩ := Date.exists_ofDay? month hleast hgreatest
    (Nat.le_min.mpr ⟨hday, month.one_le_length⟩) (Nat.min_le_right day month.length)
  refine ⟨date, hdate, fun d => ?_⟩
  rw [← Date.ofDay?_eq_some_iff, hdate, Option.some.injEq, eq_comm]

theorem span?_of_monthly (hfrequency : r.frequency = .monthly) :
    r.span? d k =
      (firstOfMonth? d (k * r.interval)).map fun first => (first, first.yearMonth.length) := by
  simp only [Rule.span?, hfrequency, firstOfMonth?]
  cases d.yearMonth.later? (k * r.interval) with
  | none => rfl
  | some month =>
      dsimp only [Option.bind_eq_bind, Option.bind_some]
      cases hfirst : Date.ofDay? month 1 with
      | none => rfl
      | some first =>
          obtain ⟨rfl, -⟩ := Date.ofDay?_eq_some_iff.mp hfirst
          rfl

/-- A monthly rule that lists no days selects the start's day of the month, or else the last. -/
theorem selects_iff_of_monthly (hvalid : r.Valid) (hfrequency : r.frequency = .monthly)
    (first : Date) :
    r.selects first d = true ↔ r.admitsMonth d.month = true ∧
      if r.monthDays.isEmpty && r.weekdays.isEmpty then
        d.day = min first.day d.yearMonth.length
      else
        r.admitsMonthDay d = true ∧ r.admitsWeekday d = true := by
  have hyearDays := hvalid.yearDays_eq_nil (by rw [hfrequency]; decide)
  have hyearDay : r.admitsYearDay d = true := by
    rw [Rule.admitsYearDay, hyearDays, List.isEmpty_nil, Bool.true_or]
  have hlists : r.listsDays = !(r.monthDays.isEmpty && r.weekdays.isEmpty) := by
    rw [Rule.listsDays, hyearDays, List.isEmpty_nil, Bool.true_and]
  rw [Rule.selects, hlists, Bool.and_eq_true]
  refine and_congr_right fun _ => ?_
  cases r.monthDays.isEmpty && r.weekdays.isEmpty with
  | true =>
      rw [Bool.not_true, if_neg Bool.false_ne_true, if_pos rfl, Rule.isStartDay, hfrequency,
        decide_eq_true_eq]
  | false =>
      rw [Bool.not_false, if_pos rfl, if_neg Bool.false_ne_true, hyearDay, Bool.true_and,
        Bool.and_eq_true]

theorem evaluates_monthlyStep (hvalid : r.Valid) (hranges : r.WithinRanges)
    (hfrequency : r.frequency = .monthly) (start : DateTime) (k : Nat) :
    Evaluates (r.spanPeriod? start) k (monthlyStep r start k) := by
  have hunit : r.frequency.unitSeconds? = none := congrArg Frequency.unitSeconds? hfrequency
  have hadvance := advance_of_ne_daily (r := r) (by rw [hfrequency]; decide)
  unfold monthlyStep
  apply evaluates_of_distance
  · cases Word.signed64.fit? (k * r.interval) <;> rfl
  apply evaluates_of_lookup (span?_of_monthly hfrequency)
  · rw [Int.toNat_natCast]
    cases firstOfMonth? start.date (k * r.interval) <;> rfl
  intro first hfirst hspan
  obtain ⟨month, hlater, hone⟩ := Option.bind_eq_some_iff.mp hfirst
  obtain ⟨rfl, -⟩ := Date.ofDay?_eq_some_iff.mp hone
  have hinside {d : Date} := inside_month_iff (d := d) hone
  have hselects {d : Date} := selects_iff_of_monthly (d := d) hvalid hfrequency start.date
  rw [matchesMonth_rule, pure_bind]
  cases hadmits : r.admitsMonth first.month with
  | false =>
      rw [Bool.not_false, if_pos rfl, ← Int.natCast_one]
      refine evaluates_leadOn_nil hspan (hadvance first) (by decide) fun d hle hlt => ?_
      have hmonth : d.month = first.month :=
        congrArg YearMonth.month (hinside.mp ⟨hle, hlt⟩)
      rw [← Bool.not_eq_true, hselects, hmonth, hadmits]
      simp
  | true =>
      rw [Bool.not_true, if_neg Bool.false_ne_true]
      split
      next hopen =>
        -- No day is listed: the start's day, or the last day of a shorter month.
        obtain ⟨date, hdate, hiff⟩ :=
          exists_day_or_last first.yearMonth first.le_year first.year_le start.date.one_le_day
        rw [monthsLater?, hlater, Option.bind_some, hdate]
        refine evaluates_expandDates hranges hunit hspan (hadvance first) fun d => ?_
        rw [List.mem_singleton, hiff, hinside, hselects, if_pos hopen]
        refine and_congr_right fun hd => ?_
        rw [show d.month = first.month from congrArg YearMonth.month hd, hadmits, hd]
        simp
      next hlisted =>
        -- Days are listed: at least one of the two lists sets a limit to intersect.
        have hgiven : r.monthDays ≠ [] ∨ r.weekdays ≠ [] := by
          rwa [Bool.and_eq_true, List.isEmpty_iff, List.isEmpty_iff, not_and_or] at hlisted
        have hcounts : r.countsWithinYear = false := by
          rw [Rule.countsWithinYear, hfrequency]
          rfl
        obtain ⟨dates, hdates, hmem⟩ :=
          gathers_monthDates hranges hcounts hgiven first.yearMonth
        rw [hdates, pure_bind]
        refine evaluates_expandDates hranges hunit hspan (hadvance first) fun d => ?_
        rw [hmem, hinside, hselects, if_neg hlisted]
        refine and_congr_right fun hd => ?_
        rw [show d.month = first.month from congrArg YearMonth.month hd, hadmits]
        simp

/-! ## Years -/

/-- The days from the first day of a year on. -/
theorem inside_year_iff {year : Int} (hfirst : first.number = daysBeforeYear year) :
    first.number ≤ d.number ∧ d.number < first.number + daysInYear year ↔ d.year = year := by
  rw [hfirst, ← mem_daysOfYear_iff, daysOfYear, Date.mem_run_iff]

theorem yearMonth_eq_iff {year : Int} {m : Month} :
    d.yearMonth = ⟨year, m⟩ ↔ d.year = year ∧ d.month = m :=
  iff_of_eq (YearMonth.mk.injEq _ _ _ _)

/-- A yearly rule that lists no days selects the start's day in its months.  If it lists no
months either, the start's month counts, and a day that it lacks gives way to its last day. -/
theorem selects_iff_of_yearly (hfrequency : r.frequency = .yearly) (hlisted : r.listsDays = false)
    (first : Date) :
    r.selects first d = true ↔
      if r.months.isEmpty then d.month = first.month ∧ d.day = min first.day d.yearMonth.length
      else d.month ∈ r.months ∧ d.day = first.day := by
  rw [Rule.selects, hlisted, if_neg Bool.false_ne_true, Rule.isStartDay, hfrequency,
    Bool.and_eq_true, Rule.admitsMonth_iff]
  dsimp only
  split
  next hmonths =>
    rw [List.isEmpty_iff] at hmonths
    rw [and_iff_right (.inl hmonths), Bool.and_eq_true, decide_eq_true_eq, decide_eq_true_eq]
  next hmonths =>
    rw [List.isEmpty_iff] at hmonths
    rw [or_iff_right hmonths, decide_eq_true_eq]

theorem span?_of_yearly (hfrequency : r.frequency = .yearly) :
    r.span? d k = (Date.ofDay? ⟨d.year + (k * r.interval : Nat), .january⟩ 1).map fun first =>
      (first, daysInYear (d.year + (k * r.interval : Nat))) := by
  simp only [Rule.span?, hfrequency]

/-- The first day of January begins its year. -/
theorem number_eq_daysBeforeYear {year : Int}
    (hfirst : Date.ofDay? ⟨year, .january⟩ 1 = some first) :
    first.year = year ∧ first.number = daysBeforeYear year := by
  obtain ⟨hmonth, hday⟩ := Date.ofDay?_eq_some_iff.mp hfirst
  have hyear : first.year = year := by rw [← Date.yearMonth_year, hmonth]
  refine ⟨hyear, ?_⟩
  rw [first.number_eq, hmonth, hday]
  exact (Int.add_zero _).trans (Int.add_zero _)

theorem year_bounds_of_spanPeriod? (hfrequency : r.frequency = .yearly) {p : Period}
    (h : r.spanPeriod? start k = some p) :
    -9999 ≤ start.date.year + (k * r.interval : Nat) ∧
      start.date.year + (k * r.interval : Nat) ≤ 9999 := by
  obtain ⟨first, days, hspan, -⟩ := Rule.spanPeriod?_cases h
  rw [span?_of_yearly hfrequency, Option.map_eq_some_iff] at hspan
  obtain ⟨january, hjanuary, -⟩ := hspan
  obtain ⟨hyear, -⟩ := number_eq_daysBeforeYear hjanuary
  exact ⟨hyear ▸ january.le_year, hyear ▸ january.year_le⟩

theorem gathers_datesInMonths (year : Int) (months : List Month) (day : Nat) :
    Gathers (datesInMonths year months day) fun d =>
      d.year = year ∧ d.month ∈ months ∧ d.day = day := by
  rw [datesInMonths_eq]
  refine gathers_pure fun d => ?_
  simp only [List.mem_filterMap, Date.ofDay?_eq_some_iff, yearMonth_eq_iff]
  constructor
  · rintro ⟨m, hm, ⟨hyear, rfl⟩, hday⟩
    exact ⟨hyear, hm, hday⟩
  · rintro ⟨hyear, hm, hday⟩
    exact ⟨_, hm, ⟨hyear, rfl⟩, hday⟩

/-- A year has one date that a yearly rule selects if it lists neither days nor months. -/
theorem exists_ownDay_of_yearly (hfrequency : r.frequency = .yearly)
    (hlisted : r.listsDays = false) (hmonths : r.months.isEmpty = true) (first : Date) {year : Int}
    (hleast : -9999 ≤ year) (hgreatest : year ≤ 9999) :
    ∃ date, Date.ofDay? ⟨year, first.month⟩
        (min first.day (YearMonth.length ⟨year, first.month⟩)) = some date ∧
      ∀ d : Date, d = date ↔ d.year = year ∧ r.selects first d = true := by
  obtain ⟨date, hdate, hiff⟩ :=
    exists_day_or_last ⟨year, first.month⟩ hleast hgreatest first.one_le_day
  refine ⟨date, hdate, fun d => ?_⟩
  rw [hiff, selects_iff_of_yearly hfrequency hlisted, if_pos hmonths, yearMonth_eq_iff, and_assoc]
  refine and_congr_right fun hyear => and_congr_right fun hmonth => ?_
  rw [yearMonth_eq_iff.mpr ⟨hyear, hmonth⟩]

theorem evaluates_yearlyStep (hranges : r.WithinRanges) (hfrequency : r.frequency = .yearly)
    (start : DateTime) (k : Nat) : Evaluates (r.spanPeriod? start) k (yearlyStep r start k) := by
  have hunit : r.frequency.unitSeconds? = none := congrArg Frequency.unitSeconds? hfrequency
  have hadvance := advance_of_ne_daily (r := r) (by rw [hfrequency]; decide)
  unfold yearlyStep
  apply evaluates_of_distance
  · cases Word.signed64.fit? (k * r.interval) <;> rfl
  apply evaluates_of_fit? (w := .signed64) (n := start.date.year + (k * r.interval : Nat))
  · cases Word.signed64.fit? (start.date.year + (k * r.interval : Nat)) <;> rfl
  · intro p hp
    obtain ⟨hleast, hgreatest⟩ := year_bounds_of_spanPeriod? hfrequency hp
    exact Word.holds_signed64_iff.mpr (by omega)
  apply evaluates_of_fit? (w := .signed16) (n := start.date.year + (k * r.interval : Nat))
  · cases Word.signed16.fit? (start.date.year + (k * r.interval : Nat)) <;> rfl
  · intro p hp
    obtain ⟨hleast, hgreatest⟩ := year_bounds_of_spanPeriod? hfrequency hp
    exact Word.holds_signed16_iff.mpr (by omega)
  apply evaluates_of_lookup (span?_of_yearly hfrequency)
  · cases Date.ofDay? ⟨start.date.year + (k * r.interval : Nat), .january⟩ 1 with
    | none => rfl
    | some first =>
        -- Here `rfl` would open the choices that follow.
        rw [Option.elim_some]
  intro first hfirst hspan
  obtain ⟨hyear, hnumber⟩ := number_eq_daysBeforeYear hfirst
  have hinside {d : Date} := inside_year_iff (d := d) hnumber
  dsimp only
  split
  next hlisted =>
    obtain ⟨dates, hdates, hmem⟩ := gathers_yearDates hranges hfrequency hlisted
      (hnumber.trans (by rw [hyear]))
    rw [hdates, pure_bind]
    refine evaluates_expandDates hranges hunit hspan (hadvance first) fun d => ?_
    rw [hmem, hinside, hyear, Rule.selects_iff_admits, hlisted]
    simp
  next hunlisted =>
    have hunlisted := Bool.eq_false_iff.mpr hunlisted
    split
    next hmonths =>
      obtain ⟨date, hdate, hiff⟩ := exists_ownDay_of_yearly hfrequency hunlisted hmonths
        start.date (hyear ▸ first.le_year) (hyear ▸ first.year_le)
      have hdistance := distance_le_of_span? hspan
      have hbegin := start.date.le_year
      have hlast := first.year_le
      rw [Int.toNat_natCast, yearsLater?, if_pos (by omega)]
      dsimp only
      rw [hdate]
      refine evaluates_expandDates hranges hunit hspan (hadvance first) fun d => ?_
      rw [List.mem_singleton, hiff, hinside]
    next hmonths =>
      obtain ⟨dates, hdates, hmem⟩ :=
        gathers_datesInMonths (start.date.year + (k * r.interval : Nat)) r.months start.date.day
      rw [hdates, pure_bind]
      refine evaluates_expandDates hranges hunit hspan (hadvance first) fun d => ?_
      rw [hmem, hinside, selects_iff_of_yearly hfrequency hunlisted, if_neg hmonths]

end Machine
end Timetable
