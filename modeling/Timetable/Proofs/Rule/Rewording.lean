import Timetable.Proofs.Rule.Meaning
import Timetable.Proofs.Rule.Scaling

/-!
# Rules in other words

Two rules give the same sequence from a start if they look at the same units, end alike, read
every date and time alike and name the same set positions (`Rule.ReadsAlike`).  Two ways of
writing a rule differently come down to this.

The order of a list and its repetitions do not matter, only its values do:
`occurrences_eq_of_sameSets`.

A component of the start that takes the place of a missing list can be listed as well:
`occurrences_spelledOut_eq`.  Two cannot: the month, in a yearly rule from a 29 February, and the
day, in a monthly rule from the 29th, 30th or 31st.  Such a day gives way to an earlier one in a
shorter month if the start stands for it, but not if it is listed.
-/

namespace Timetable

open Civil

namespace Rule

variable {r s : Rule} {start t : DateTime} {d first : Date}

/-! ## Rules that read everything alike -/

/-- Whether two rules look at the same units and end alike. -/
structure SameFrame (r s : Rule) : Prop where
  frequency : r.frequency = s.frequency
  interval : r.interval = s.interval
  ending : r.ending = s.ending
  weekStart : r.weekStart = s.weekStart

/-- Whether two rules, followed from a start, look at the same units, find the same dates and
times in them, take the same places of these and end alike. -/
structure ReadsAlike (r s : Rule) (start : DateTime) : Prop extends r.SameFrame s where
  selects : ∀ d, r.selects start.date d = s.selects start.date d
  admitsTime : ∀ t, r.admitsTime start.time t = s.admitsTime start.time t
  setPositions : ∀ n, n ∈ r.setPositions ↔ n ∈ s.setPositions

theorem SameFrame.mem_unit_iff (h : r.SameFrame s) (start t : DateTime) (k : Nat) :
    r.unitNumber t = r.unitNumber start + (k * r.interval : Nat) ↔
      s.unitNumber t = s.unitNumber start + (k * s.interval : Nat) := by
  simp only [unitNumber, h.frequency, h.interval, h.weekStart]

theorem SameFrame.beginsInside_eq (h : r.SameFrame s) (d : Date) :
    r.beginsInside d = s.beginsInside d := by
  simp only [beginsInside, h.frequency, h.weekStart]

theorem SameFrame.reaches_eq (h : r.SameFrame s) (first d : Date) :
    r.reaches first d = s.reaches first d := by
  simp only [reaches, h.frequency]

theorem SameFrame.count?_eq (h : r.SameFrame s) : r.count? = s.count? := by
  rw [count?, h.ending, count?]

theorem SameFrame.isInTime_eq (h : r.SameFrame s) (start : DateTime) :
    r.isInTime start = s.isInTime start := by
  have hdeadline : r.deadline? = s.deadline? := by rw [deadline?, h.ending, deadline?]
  funext t
  have htick : r.tickOf start t = s.tickOf start t := by simp only [tickOf, h.frequency]
  rw [isInTime, isInTime, hdeadline, htick]

theorem ReadsAlike.wholeOffer_eq (h : r.ReadsAlike s start) (k : Nat) :
    r.wholeOffer start k = s.wholeOffer start k := by
  apply (r.wholeOffer_ascends start k).eq_of_mem_iff (s.wholeOffer_ascends start k)
  intro t
  rw [mem_wholeOffer_iff, mem_wholeOffer_iff, h.mem_unit_iff, h.beginsInside_eq, h.reaches_eq,
    h.selects, h.admitsTime]

/-- Rules that read everything alike give the same sequence. -/
theorem ReadsAlike.toList_occurrences_eq (h : r.ReadsAlike s start) :
    (r.occurrences start).toList = (s.occurrences start).toList := by
  have hoffers : r.offers start = s.offers start := by
    apply List.flatMap_congr
    intro k _
    rw [offer_eq_select_wholeOffer, offer_eq_select_wholeOffer, h.wholeOffer_eq,
      Position.select_eq_of_mem_iff h.setPositions]
  rw [toList_occurrences_eq_atMost, toList_occurrences_eq_atMost, hoffers, h.count?_eq,
    h.isInTime_eq]

/-! ## Lists with the same values -/

/-- Whether two rules look at the same units, end alike and list the same values, be it in
another order or with repetitions. -/
structure SameSets (r s : Rule) : Prop extends r.SameFrame s where
  months : ∀ m, m ∈ r.months ↔ m ∈ s.months
  yearDays : ∀ n, n ∈ r.yearDays ↔ n ∈ s.yearDays
  monthDays : ∀ n, n ∈ r.monthDays ↔ n ∈ s.monthDays
  weekdays : ∀ w, w ∈ r.weekdays ↔ w ∈ s.weekdays
  hours : ∀ n, n ∈ r.hours ↔ n ∈ s.hours
  minutes : ∀ n, n ∈ r.minutes ↔ n ∈ s.minutes
  seconds : ∀ n, n ∈ r.seconds ↔ n ∈ s.seconds
  setPositions : ∀ n, n ∈ r.setPositions ↔ n ∈ s.setPositions

theorem SameSets.admitsMonth_eq (h : r.SameSets s) (m : Month) :
    r.admitsMonth m = s.admitsMonth m := by
  rw [admitsMonth, admitsMonth, Lists.isEmpty_eq_of_mem_iff h.months,
    Lists.contains_eq_of_mem_iff h.months]

theorem SameSets.admitsYearDay_eq (h : r.SameSets s) (d : Date) :
    r.admitsYearDay d = s.admitsYearDay d := by
  rw [admitsYearDay, admitsYearDay, Lists.isEmpty_eq_of_mem_iff h.yearDays,
    Lists.any_eq_of_mem_iff h.yearDays]

theorem SameSets.admitsMonthDay_eq (h : r.SameSets s) (d : Date) :
    r.admitsMonthDay d = s.admitsMonthDay d := by
  rw [admitsMonthDay, admitsMonthDay, Lists.isEmpty_eq_of_mem_iff h.monthDays,
    Lists.any_eq_of_mem_iff h.monthDays]

/-- The ordinals of weekdays count within the same days. -/
theorem SameSets.ordinalPosition_eq (h : r.SameSets s) (d : Date) :
    r.ordinalPosition d = s.ordinalPosition d := by
  have hcounts : r.countsWithinYear = s.countsWithinYear := by
    simp only [countsWithinYear, h.frequency, Lists.isEmpty_eq_of_mem_iff h.months]
  rw [ordinalPosition, ordinalPosition, hcounts]

theorem SameSets.admitsWeekday_eq (h : r.SameSets s) (d : Date) :
    r.admitsWeekday d = s.admitsWeekday d := by
  rw [admitsWeekday, admitsWeekday, h.ordinalPosition_eq,
    Lists.isEmpty_eq_of_mem_iff h.weekdays, Lists.any_eq_of_mem_iff h.weekdays]

theorem SameSets.listsDays_eq (h : r.SameSets s) : r.listsDays = s.listsDays := by
  rw [listsDays, listsDays, Lists.isEmpty_eq_of_mem_iff h.yearDays,
    Lists.isEmpty_eq_of_mem_iff h.monthDays, Lists.isEmpty_eq_of_mem_iff h.weekdays]

theorem SameSets.isStartDay_eq (h : r.SameSets s) (first d : Date) :
    r.isStartDay first d = s.isStartDay first d := by
  simp only [isStartDay, h.frequency, Lists.isEmpty_eq_of_mem_iff h.months]

theorem SameSets.selects_eq (h : r.SameSets s) (first d : Date) :
    r.selects first d = s.selects first d := by
  rw [selects, selects, h.admitsMonth_eq, h.listsDays_eq, h.admitsYearDay_eq,
    h.admitsMonthDay_eq, h.admitsWeekday_eq, h.isStartDay_eq]

theorem admitsComponent_eq_of_mem_iff {listed others : List Nat}
    (h : ∀ n, n ∈ listed ↔ n ∈ others) (limits : Bool) (own v : Nat) :
    admitsComponent listed limits own v = admitsComponent others limits own v := by
  rw [admitsComponent, admitsComponent, Lists.isEmpty_eq_of_mem_iff h,
    Lists.contains_eq_of_mem_iff h]

theorem SameSets.admitsTime_eq (h : r.SameSets s) (own t : Time) :
    r.admitsTime own t = s.admitsTime own t := by
  simp only [admitsTime, h.frequency, admitsComponent_eq_of_mem_iff h.hours,
    admitsComponent_eq_of_mem_iff h.minutes, admitsComponent_eq_of_mem_iff h.seconds]

/-- Rules with the same frequency, interval, ending and first day of the week, and with the same
values in their lists, give the same sequence from every start. -/
theorem occurrences_eq_of_sameSets (h : r.SameSets s) (start : DateTime) :
    (r.occurrences start).toList = (s.occurrences start).toList :=
  ReadsAlike.toList_occurrences_eq
    { toSameFrame := h.toSameFrame
      selects := h.selects_eq start.date
      admitsTime := h.admitsTime_eq start.time
      setPositions := h.setPositions }

/-- `tenthDays` with its lists in ascending order and some values twice. -/
def sortedTenthDays : Rule :=
  { tenthDays with
    months := [.january, .january, .march]
    monthDays := [5, -7]
    weekdays := [⟨.thursday, none⟩, ⟨.tuesday, none⟩, ⟨.thursday, none⟩]
    hours := [12, 12]
    seconds := [0, 60] }

/-- In whatever order the lists stand, after that of January the 5 March comes next. -/
theorem sortedTenthDays_agree :
    sortedTenthDays.SameSets tenthDays ∧ sortedTenthDays ≠ tenthDays ∧
      (sortedTenthDays.occurrences januaryMorning).item 1 = some marchNoon ∧
      (sortedTenthDays.occurrences januaryMorning).toList =
        (tenthDays.occurrences januaryMorning).toList := by
  have hsame : sortedTenthDays.SameSets tenthDays :=
    { frequency := rfl
      interval := rfl
      ending := rfl
      weekStart := rfl
      months := by simp [sortedTenthDays, tenthDays, or_comm]
      yearDays := fun _ => Iff.rfl
      monthDays := by simp [sortedTenthDays, tenthDays, or_comm]
      weekdays := by simp [sortedTenthDays, tenthDays, or_comm]
      hours := by simp [sortedTenthDays, tenthDays]
      minutes := fun _ => Iff.rfl
      seconds := by simp [sortedTenthDays, tenthDays, or_comm]
      setPositions := fun _ => Iff.rfl }
  exact ⟨hsame, by decide, by decide +kernel, occurrences_eq_of_sameSets hsame januaryMorning⟩

/-! ## Components of the start -/

/-- The components of a start that can take the place of a list. -/
inductive Component where
  | hour
  | minute
  | second
  | weekday
  | monthDay
  | month
  deriving DecidableEq

/-- The same rule with a component of the start listed. -/
def spelledOut (r : Rule) (start : DateTime) : Component → Rule
  | .hour => { r with hours := [start.time.hour] }
  | .minute => { r with minutes := [start.time.minute] }
  | .second => { r with seconds := [start.time.second] }
  | .weekday => { r with weekdays := [⟨start.date.weekday, none⟩] }
  | .monthDay => { r with monthDays := [start.date.day] }
  | .month => { r with months := [start.date.month] }

/-- Whether a component of the start takes the place of a list that a rule lacks, and can be
listed instead. -/
def TakesFromStart (r : Rule) (start : DateTime) : Component → Prop
  | .hour => r.hours = [] ∧ r.frequency ∈ [.daily, .weekly, .monthly, .yearly]
  | .minute => r.minutes = [] ∧ r.frequency ∈ [.hourly, .daily, .weekly, .monthly, .yearly]
  | .second =>
      r.seconds = [] ∧ r.frequency ∈ [.minutely, .hourly, .daily, .weekly, .monthly, .yearly]
  | .weekday => r.weekdays = [] ∧ r.frequency = .weekly
  | .monthDay =>
      r.monthDays = [] ∧ r.weekdays = [] ∧
        (r.frequency = .monthly ∧ start.date.day ≤ 28 ∨
          r.frequency = .yearly ∧ r.yearDays = [] ∧ r.months ≠ [])
  | .month =>
      r.months = [] ∧ r.yearDays = [] ∧ r.monthDays = [] ∧ r.weekdays = [] ∧
        r.frequency = .yearly ∧ ¬ (start.date.month = .february ∧ start.date.day = 29)

theorem sameFrame_spelledOut (r : Rule) (start : DateTime) (c : Component) :
    (r.spelledOut start c).SameFrame r := by
  cases c <;> exact ⟨rfl, rfl, rfl, rfl⟩

/-- To list the start's own component is to expand a list without values. -/
theorem admitsComponent_singleton (limits : Bool) (own v : Nat) :
    admitsComponent [own] limits own v = admitsComponent [] false own v := by
  rw [Bool.eq_iff_iff, admitsComponent_iff, admitsComponent_iff]
  simp

/-- A number that is not negative names the day of the month that it is. -/
theorem monthPosition_isNamedBy_natCast_iff (d : Date) (n : Nat) :
    (monthPosition d).isNamedBy n = true ↔ d.day = n := by
  have hday := d.one_le_day
  rw [Position.isNamedBy_iff]
  simp only [monthPosition, Position.ofIndex]
  omega

/-- If no days are listed, a date has to stand for the start's day. -/
theorem selects_iff_isStartDay (hlists : r.listsDays = false) :
    r.selects first d = true ↔ r.admitsMonth d.month = true ∧ r.isStartDay first d = true := by
  rw [selects, hlists, if_neg Bool.false_ne_true, Bool.and_eq_true]

/-- A list of times that is expanded can be spelled out. -/
theorem admitsTime_spelledOut {c : Component} (h : r.TakesFromStart start c) (t : Time) :
    (r.spelledOut start c).admitsTime start.time t = r.admitsTime start.time t := by
  cases c
  case hour =>
    obtain ⟨hnone, hfrequency⟩ := h
    have hfiner : r.frequency ≠ .secondly ∧ r.frequency ≠ .minutely ∧ r.frequency ≠ .hourly := by
      revert hfrequency
      cases r.frequency <;> decide
    simp only [spelledOut, admitsTime, admitsComponent_singleton, hnone, hfiner, decide_false,
      Bool.or_false]
  case minute =>
    obtain ⟨hnone, hfrequency⟩ := h
    have hfiner : r.frequency ≠ .secondly ∧ r.frequency ≠ .minutely := by
      revert hfrequency
      cases r.frequency <;> decide
    simp only [spelledOut, admitsTime, admitsComponent_singleton, hnone, hfiner, decide_false,
      Bool.or_false]
    rfl
  case second =>
    obtain ⟨hnone, hfrequency⟩ := h
    have hfiner : r.frequency ≠ .secondly := by
      revert hfrequency
      cases r.frequency <;> decide
    simp only [spelledOut, admitsTime, admitsComponent_singleton, hnone, hfiner, decide_false]
    rfl
  all_goals rfl

/-- A rule with a single day of the month and no other days selects this day. -/
theorem selects_iff_day_eq {n : Nat} (hyearDays : r.yearDays = []) (hmonthDays : r.monthDays = [n])
    (hweekdays : r.weekdays = []) :
    r.selects first d = true ↔ r.admitsMonth d.month = true ∧ d.day = n := by
  have hlists : r.listsDays = true := listsDays_of_ne_nil (.inl (by simp [hmonthDays]))
  rw [selects_iff_admits, hlists, admitsMonthDay, hmonthDays,
    ← monthPosition_isNamedBy_natCast_iff]
  simp [admitsYearDay, hyearDays, admitsWeekday, hweekdays]

/-- A rule with a single weekday and no other days selects the days of this name. -/
theorem selects_iff_weekday_eq {w : Weekday} (hyearDays : r.yearDays = [])
    (hmonthDays : r.monthDays = []) (hweekdays : r.weekdays = [⟨w, none⟩]) :
    r.selects first d = true ↔ r.admitsMonth d.month = true ∧ d.weekday = w := by
  have hlists : r.listsDays = true := listsDays_of_ne_nil (.inr (by simp [hweekdays]))
  have hweekday : r.admitsWeekday d = true ↔ d.weekday = w := by
    rw [admitsWeekday, hweekdays]
    simp [eq_comm]
  rw [selects_iff_admits, hlists, hweekday]
  simp [admitsYearDay, hyearDays, admitsMonthDay, hmonthDays]

/-- A day for which the start's day stands can be spelled out. -/
theorem selects_spelledOut (hvalid : r.Valid) {c : Component} (h : r.TakesFromStart start c)
    (d : Date) : (r.spelledOut start c).selects start.date d = r.selects start.date d := by
  rw [Bool.eq_iff_iff]
  cases c
  case weekday =>
    obtain ⟨hnone, hweekly⟩ := h
    have hyearDays := hvalid.yearDays_eq_nil (by rw [hweekly]; decide)
    have hmonthDays := hvalid.monthDays_eq_nil hweekly
    have hstartDay : r.isStartDay start.date d = true ↔ d.weekday = start.date.weekday := by
      rw [isStartDay, hweekly, decide_eq_true_eq]
    rw [selects_iff_isStartDay (listsDays_eq_false_iff.mpr ⟨hyearDays, hmonthDays, hnone⟩),
      hstartDay,
      selects_iff_weekday_eq (r := r.spelledOut start .weekday) hyearDays hmonthDays rfl]
    rfl
  case monthDay =>
    obtain ⟨hmonthDays, hweekdays, hplace⟩ := h
    have hyearDays : r.yearDays = [] := by
      rcases hplace with ⟨hmonthly, -⟩ | ⟨-, hyearDays, -⟩
      · exact hvalid.yearDays_eq_nil (by rw [hmonthly]; decide)
      · exact hyearDays
    have hstartDay : r.isStartDay start.date d = true ↔ d.day = start.date.day := by
      rcases hplace with ⟨hmonthly, hday⟩ | ⟨hyearly, -, hmonths⟩
      · have hlength := d.yearMonth.le_length
        rw [isStartDay, hmonthly, decide_eq_true_eq, Nat.min_eq_left (by omega)]
      · simp [isStartDay, hyearly, hmonths]
    rw [selects_iff_isStartDay (listsDays_eq_false_iff.mpr ⟨hyearDays, hmonthDays, hweekdays⟩),
      hstartDay, selects_iff_day_eq (r := r.spelledOut start .monthDay) hyearDays rfl hweekdays]
    rfl
  case month =>
    obtain ⟨hmonths, hyearDays, hmonthDays, hweekdays, hyearly, hleapDay⟩ := h
    have hlists := listsDays_eq_false_iff.mpr ⟨hyearDays, hmonthDays, hweekdays⟩
    -- Every day but the 29 February has the same number in all its anniversaries.
    have hanniversary : d.IsAnniversaryOf start.date ↔
        d.month = start.date.month ∧ d.day = start.date.day := by
      rw [Date.IsAnniversaryOf, if_neg]
      exact fun hleap => hleapDay ⟨hleap.1, hleap.2.1⟩
    rw [isAnniversaryOf_iff] at hanniversary
    rw [selects_iff_isStartDay (r := r.spelledOut start .month) hlists,
      selects_iff_isStartDay hlists]
    simp [spelledOut, admitsMonth, isStartDay, hyearly, hmonths, hanniversary]
  all_goals rfl

/-- A list of a single value passes the check of a range that has the value. -/
theorem contains_of_mem_singleton {range : ValueRange} {v : Nat} (hleast : range.least ≤ 0)
    (hgreatest : (v : Int) ≤ range.greatest) (hzero : range.allowsZero = true ∨ v ≠ 0) :
    ∀ n ∈ [(v : Int)], range.contains n = true := by
  intro n hn
  have hpos : range.least ≤ v := Int.le_trans hleast (Int.natCast_nonneg v)
  rw [List.mem_singleton.mp hn]
  simp [ValueRange.contains, hpos, hgreatest, hzero]

/-- A rule stays valid if it lists the component of the start that stands in for the list. -/
theorem valid_spelledOut (hvalid : r.Valid) {c : Component} (h : r.TakesFromStart start c) :
    (r.spelledOut start c).Valid := by
  suffices hok : (r.spelledOut start c).toDraft.check = .ok () by
    rw [Valid, hok]
    rfl
  obtain ⟨hendings, hyearDays, hmonthDays, hordinals, hyearRange, hmonthRange, hhourRange,
    hminuteRange, hsecondRange, hpositions, hordinalRange⟩ :=
    Draft.check_eq_ok_iff.mp hvalid.check_eq_ok
  rw [Draft.check_eq_ok_iff]
  cases c
  case hour =>
    have hlt := start.time.hour_lt
    have hle : (start.time.hour : Int) ≤ 23 := by omega
    exact ⟨hendings, hyearDays, hmonthDays, hordinals, hyearRange, hmonthRange,
      contains_of_mem_singleton (by decide) hle (.inl rfl), hminuteRange,
      hsecondRange, hpositions, hordinalRange⟩
  case minute =>
    have hlt := start.time.minute_lt
    have hle : (start.time.minute : Int) ≤ 59 := by omega
    exact ⟨hendings, hyearDays, hmonthDays, hordinals, hyearRange, hmonthRange, hhourRange,
      contains_of_mem_singleton (by decide) hle (.inl rfl), hsecondRange,
      hpositions, hordinalRange⟩
  case second =>
    have hlt := start.time.second_lt
    have hle : (start.time.second : Int) ≤ 60 := by omega
    exact ⟨hendings, hyearDays, hmonthDays, hordinals, hyearRange, hmonthRange, hhourRange,
      hminuteRange, contains_of_mem_singleton (by decide) hle (.inl rfl),
      hpositions, hordinalRange⟩
  case weekday =>
    -- A weekday without an ordinal is allowed at every frequency.
    refine ⟨hendings, hyearDays, hmonthDays, ?_, hyearRange, hmonthRange, hhourRange,
      hminuteRange, hsecondRange, hpositions, ?_⟩ <;> simp [toDraft, spelledOut]
  case monthDay =>
    obtain ⟨-, -, hplace⟩ := h
    have hweekly : r.frequency ≠ .weekly := by
      rcases hplace with ⟨hmonthly, -⟩ | ⟨hyearly, -⟩
      · rw [hmonthly]
        decide
      · rw [hyearly]
        decide
    have hpos := start.date.one_le_day
    have hday := start.date.day_le_length
    have hlength := start.date.yearMonth.length_le
    have hle : (start.date.day : Int) ≤ 31 := by omega
    exact ⟨hendings, hyearDays, by simp [toDraft, spelledOut, hweekly], hordinals, hyearRange,
      contains_of_mem_singleton (by decide) hle (.inr (by omega)), hhourRange,
      hminuteRange, hsecondRange, hpositions, hordinalRange⟩
  case month =>
    exact ⟨hendings, hyearDays, hmonthDays, hordinals, hyearRange, hmonthRange, hhourRange,
      hminuteRange, hsecondRange, hpositions, hordinalRange⟩

/-- If a component of the start takes the place of a list that a valid rule lacks, the rule that
lists it is valid too and gives the same sequence. -/
theorem occurrences_spelledOut_eq (hvalid : r.Valid) {c : Component}
    (h : r.TakesFromStart start c) :
    (r.spelledOut start c).Valid ∧
      ((r.spelledOut start c).occurrences start).toList = (r.occurrences start).toList :=
  ⟨valid_spelledOut hvalid h,
    ReadsAlike.toList_occurrences_eq
      { toSameFrame := r.sameFrame_spelledOut start c
        selects := selects_spelledOut hvalid h
        admitsTime := admitsTime_spelledOut h
        setPositions := fun n => by cases c <;> rfl }⟩

/-- The 28th of every other month, from 28 January 2024, whether the day is listed or not. -/
theorem everyOther_spelledOut_agrees :
    (everyOther.withFrequency .monthly).Valid ∧
      (everyOther.withFrequency .monthly).TakesFromStart januaryEvening .monthDay ∧
      ((everyOther.withFrequency .monthly).spelledOut januaryEvening .monthDay).monthDays = [28] ∧
      ((everyOther.occurrencesAt .monthly januaryEvening).map fun t =>
        (t.date.month, t.date.day)) = [(.january, 28), (.march, 28), (.may, 28)] ∧
      (((everyOther.withFrequency .monthly).spelledOut januaryEvening .monthDay).occurrences
        januaryEvening).toList = everyOther.occurrencesAt .monthly januaryEvening := by
  have hvalid : (everyOther.withFrequency .monthly).Valid := by decide
  have htakes : (everyOther.withFrequency .monthly).TakesFromStart januaryEvening .monthDay :=
    ⟨rfl, rfl, .inl ⟨rfl, by decide +kernel⟩⟩
  exact ⟨hvalid, htakes, by decide +kernel, by decide +kernel,
    (occurrences_spelledOut_eq hvalid htakes).2⟩

/-- Every twenty-four months from a leap day, the 29th that is listed does not give way to
28 February 2026. -/
example :
    ((((everyOther.scaled 12).withFrequency .monthly).spelledOut leapEvening .monthDay).occurrences
        leapEvening).toList.map (fun t => (t.date.year, t.date.day)) =
      [(2024, 29), (2028, 29), (2032, 29)] := by
  decide +kernel

end Rule
end Timetable
