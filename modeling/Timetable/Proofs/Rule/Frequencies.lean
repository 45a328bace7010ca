import Timetable.Proofs.Rule.Endings
import Timetable.Proofs.Rule.Reach

/-!
# One sequence at several frequencies

Without an interval, set positions and a deadline, the units of a rule cover everything from
the start on.  What is left of the frequency is how the rule's lists are read: which dates
they select, which times they admit, and how far single steps lead
(`mem_offers_iff_of_interval_eq_one`).  Where a rule lists what the start would otherwise
decide, the frequencies come to the same sequence: `frequencies_agree`.
-/

namespace Timetable

open Civil

namespace Rule

variable {r : Rule} {start t : DateTime} {f g : Frequency}

/-- The same lists, repeated at another frequency. -/
def withFrequency (r : Rule) (f : Frequency) : Rule :=
  { r with frequency := f }

/-- The occurrences of a rule when its lists are repeated at a frequency. -/
def occurrencesAt (r : Rule) (f : Frequency) (start : DateTime) : List DateTime :=
  ((r.withFrequency f).occurrences start).toList

/-- A later datetime does not lie in an earlier unit. -/
theorem unitNumber_le_of_le (h : start ≤ t) : r.unitNumber start ≤ r.unitNumber t := by
  have hseconds := DateTime.wholeSeconds_le_of_le h
  have hdate := DateTime.number_le_of_le h
  have hmonth := Date.index_le_of_number_le hdate
  have hyear := Date.year_le_of_number_le hdate
  unfold unitNumber
  cases r.frequency <;> dsimp only <;> omega

/-- The calendar begins with a Monday, so all weeks that begin on Mondays begin inside. -/
theorem beginsInside_of_monday (hweek : r.weekStart = .monday) (first : Date) :
    r.beginsInside first = true := by
  have hsince := first.daysSince_weekday .monday
  have hbegin := first.first_le
  have hend := first.le_last
  have hnumber : Weekday.monday.number = 1 := rfl
  obtain ⟨week, hfirst⟩ : ∃ week : Date,
      week.number = first.number + -(first.weekday.daysSince .monday : Int) :=
    ⟨⟨_, by omega, by omega⟩, rfl⟩
  rw [beginsInside, hweek, Date.addDays?_eq_some_iff.mpr hfirst]
  simp

/-- When a rule without set positions offers a datetime: it lies as many units after the start
as are a number of intervals, on a selected date and at an admitted time. -/
theorem mem_offers_iff_dvd (hpositions : r.setPositions = []) :
    t ∈ r.offers start ↔
      start ≤ t ∧ r.beginsInside start.date = true ∧ r.reaches start.date t.date = true ∧
        (r.interval : Int) ∣ r.unitNumber t - r.unitNumber start ∧
        r.selects start.date t.date = true ∧ r.admitsTime start.time t.time = true := by
  have hall (l : List DateTime) : Position.select r.setPositions l = l := by
    rw [hpositions]
    rfl
  simp only [mem_offers_iff, offer_eq_select_wholeOffer, hall, List.mem_filter,
    mem_wholeOffer_iff, decide_eq_true_eq]
  constructor
  · rintro ⟨k, ⟨hinside, hreaches, hunit, hselects, htime⟩, hle⟩
    refine ⟨hle, hinside, hreaches, ⟨k, ?_⟩, hselects, htime⟩
    rw [hunit, Int.natCast_mul, Int.add_comm, Int.add_sub_cancel, Int.mul_comm]
  · rintro ⟨hle, hinside, hreaches, ⟨k, hk⟩, hselects, htime⟩
    have hunit := unitNumber_le_of_le (r := r) hle
    have hpos : (0 : Int) < r.interval := Int.natCast_pos.mpr r.interval_pos
    have hk' : 0 ≤ k := by
      apply Int.le_of_mul_le_mul_left _ hpos
      omega
    refine ⟨k.toNat, ⟨hinside, hreaches, ?_, hselects, htime⟩, hle⟩
    rw [Int.natCast_mul, Int.toNat_of_nonneg hk', Int.mul_comm]
    omega

/-- When a rule without an interval and set positions offers a datetime. -/
theorem mem_offers_iff_of_interval_eq_one (hinterval : r.interval = 1)
    (hpositions : r.setPositions = []) :
    t ∈ r.offers start ↔
      start ≤ t ∧ r.beginsInside start.date = true ∧ r.reaches start.date t.date = true ∧
        r.selects start.date t.date = true ∧ r.admitsTime start.time t.time = true := by
  rw [mem_offers_iff_dvd hpositions, hinterval, Int.natCast_one,
    iff_true_intro (Int.one_dvd (r.unitNumber t - r.unitNumber start)), true_and]

/-! ## How the lists are read -/

/-- The frequency matters to the ordinals of weekdays only if they may count within the
year. -/
theorem admitsWeekday_withFrequency_eq
    (h : (∀ s ∈ r.weekdays, s.ordinal = none) ∨
      (r.withFrequency f).countsWithinYear = (r.withFrequency g).countsWithinYear) (d : Date) :
    (r.withFrequency f).admitsWeekday d = (r.withFrequency g).admitsWeekday d := by
  have hposition (s : WeekdaySelector) (hs : s ∈ r.weekdays) :
      s.ordinal.all ((r.withFrequency f).ordinalPosition d).isNamedBy =
        s.ordinal.all ((r.withFrequency g).ordinalPosition d).isNamedBy := by
    rcases h with hplain | hcounts
    · rw [hplain s hs, Option.all_none, Option.all_none]
    · rw [ordinalPosition, hcounts, ordinalPosition]
  rw [admitsWeekday, admitsWeekday]
  congr 1
  rw [Bool.eq_iff_iff, List.any_eq_true, List.any_eq_true]
  apply exists_congr
  intro s
  apply and_congr_right
  intro hs
  rw [hposition s hs]

/-- The frequency matters to the dates only through the ordinals of weekdays and, if no days
are listed, through the day that the start stands for. -/
theorem selects_withFrequency_eq {first : Date}
    (hweekdays : (∀ s ∈ r.weekdays, s.ordinal = none) ∨
      (r.withFrequency f).countsWithinYear = (r.withFrequency g).countsWithinYear)
    (hstartDay : r.listsDays = true ∨ ∀ d, (r.withFrequency f).isStartDay first d =
      (r.withFrequency g).isStartDay first d) (d : Date) :
    (r.withFrequency f).selects first d = (r.withFrequency g).selects first d := by
  have hlists : (r.withFrequency f).listsDays = (r.withFrequency g).listsDays := rfl
  rw [selects, selects, admitsWeekday_withFrequency_eq hweekdays, hlists]
  rcases hstartDay with hlisted | hsame
  · rw [if_pos (show (r.withFrequency g).listsDays = true from hlisted),
      if_pos (show (r.withFrequency g).listsDays = true from hlisted)]
    rfl
  · rw [hsame]
    rfl

theorem listsDays_eq_false_iff :
    r.listsDays = false ↔ r.yearDays = [] ∧ r.monthDays = [] ∧ r.weekdays = [] := by
  simp [listsDays, and_assoc]

theorem listsDays_of_ne_nil (h : r.monthDays ≠ [] ∨ r.weekdays ≠ []) : r.listsDays = true := by
  rw [← Bool.not_eq_false, listsDays_eq_false_iff]
  rintro ⟨-, hmonthDays, hweekdays⟩
  rcases h with hlisted | hlisted
  · exact hlisted hmonthDays
  · exact hlisted hweekdays

/-- A list that has values is read in the same way wherever it stands. -/
theorem admitsComponent_eq_of_ne_nil {listed : List Nat} (h : listed ≠ [])
    (limits limits' : Bool) (own v : Nat) :
    admitsComponent listed limits own v = admitsComponent listed limits' own v := by
  simp [admitsComponent, h]

/-- Frequencies that are made of days select alike where days are listed without ordinals. -/
theorem selects_eq_daily (hdays : r.monthDays ≠ [] ∨ r.weekdays ≠ [])
    (hplain : ∀ s ∈ r.weekdays, s.ordinal = none) (f : Frequency) (first d : Date) :
    (r.withFrequency f).selects first d = (r.withFrequency .daily).selects first d :=
  selects_withFrequency_eq (.inl hplain) (.inl (listsDays_of_ne_nil hdays)) d

/-- With months listed the ordinals count within the month in yearly rules too. -/
theorem selects_monthly_eq_yearly (hmonths : r.months ≠ [])
    (hdays : r.monthDays ≠ [] ∨ r.weekdays ≠ []) (first d : Date) :
    (r.withFrequency .monthly).selects first d = (r.withFrequency .yearly).selects first d := by
  have hcounts : (r.withFrequency .monthly).countsWithinYear =
      (r.withFrequency .yearly).countsWithinYear := by
    simp [countsWithinYear, withFrequency, hmonths]
  exact selects_withFrequency_eq (.inr hcounts) (.inl (listsDays_of_ne_nil hdays)) d

theorem admitsTime_secondly_eq_minutely (hseconds : r.seconds ≠ []) (own time : Time) :
    (r.withFrequency .secondly).admitsTime own time =
      (r.withFrequency .minutely).admitsTime own time := by
  simp [admitsTime, withFrequency, admitsComponent_eq_of_ne_nil hseconds true false]

theorem admitsTime_minutely_eq_hourly (hminutes : r.minutes ≠ []) (own time : Time) :
    (r.withFrequency .minutely).admitsTime own time =
      (r.withFrequency .hourly).admitsTime own time := by
  simp [admitsTime, withFrequency, admitsComponent_eq_of_ne_nil hminutes true false]

theorem admitsTime_hourly_eq_daily (hhours : r.hours ≠ []) (own time : Time) :
    (r.withFrequency .hourly).admitsTime own time =
      (r.withFrequency .daily).admitsTime own time := by
  simp [admitsTime, withFrequency, admitsComponent_eq_of_ne_nil hhours true false]

/-! ## Two frequencies -/

section TwoFrequencies

variable (hinterval : r.interval = 1) (hweek : r.weekStart = .monday)
  (hpositions : r.setPositions = []) (hdeadline : r.deadline? = none)
  (hselects : ∀ d, (r.withFrequency f).selects start.date d =
    (r.withFrequency g).selects start.date d)
  (htimes : ∀ time, (r.withFrequency f).admitsTime start.time time =
    (r.withFrequency g).admitsTime start.time time)
  (hreaches : ∀ d, (r.withFrequency f).reaches start.date d = true →
    (r.withFrequency g).reaches start.date d = true)

include hinterval hweek hpositions hdeadline hselects htimes hreaches

/-- Two frequencies at which a rule selects the same dates and admits the same times give
the same sequence, as far as the one reaches that reaches less. -/
theorem occurrencesAt_eq_filter :
    r.occurrencesAt f start =
      (r.occurrencesAt g start).filter fun t =>
        (r.withFrequency f).reaches start.date t.date := by
  apply toList_occurrences_eq_filter
  · apply (offers_pairwise_lt _ _).eq_of_mem_iff ((offers_pairwise_lt _ _).filter _)
    intro t
    have hf := beginsInside_of_monday (r := r.withFrequency f) hweek start.date
    have hg := beginsInside_of_monday (r := r.withFrequency g) hweek start.date
    rw [List.mem_filter,
      mem_offers_iff_of_interval_eq_one (r := r.withFrequency f) hinterval hpositions,
      mem_offers_iff_of_interval_eq_one (r := r.withFrequency g) hinterval hpositions, hf, hg,
      hselects, htimes]
    constructor
    · rintro ⟨hle, -, hreach, hselected, htime⟩
      exact ⟨⟨hle, rfl, hreaches _ hreach, hselected, htime⟩, hreach⟩
    · rintro ⟨⟨hle, -, -, hselected, htime⟩, hreach⟩
      exact ⟨hle, rfl, hreach, hselected, htime⟩
  · intro a b hab
    exact reaches_mono (Int.le_refl _) (DateTime.number_le_of_le hab)
  · rfl
  · intro hne
    exact absurd hdeadline hne

theorem occurrencesAt_eq_of_reaches
    (hall : ∀ t ∈ r.occurrencesAt g start, (r.withFrequency f).reaches start.date t.date = true) :
    r.occurrencesAt f start = r.occurrencesAt g start := by
  rw [occurrencesAt_eq_filter hinterval hweek hpositions hdeadline hselects htimes hreaches]
  exact List.filter_eq_self.mpr hall

/-- Where single steps are exact, the two sequences are the same. -/
theorem occurrencesAt_eq_of_exactFrom (hexact : start.ExactFrom) :
    r.occurrencesAt f start = r.occurrencesAt g start := by
  apply occurrencesAt_eq_of_reaches hinterval hweek hpositions hdeadline hselects htimes hreaches
  intro t ht
  exact reaches_of_exactFrom hexact
    (DateTime.number_le_of_le (start_le_of_mem_toList_occurrences ht))

end TwoFrequencies

/-! ## All frequencies -/

section AllFrequencies

variable (hinterval : r.interval = 1) (hweek : r.weekStart = .monday)
  (hpositions : r.setPositions = []) (hdeadline : r.deadline? = none)

include hinterval hweek hpositions hdeadline

/-- Frequencies that are made of days agree where days are listed without ordinals. -/
theorem agree_of_days (hdays : r.monthDays ≠ [] ∨ r.weekdays ≠ [])
    (hplain : ∀ s ∈ r.weekdays, s.ordinal = none) (start : DateTime) :
    r.occurrencesAt .yearly start = r.occurrencesAt .daily start ∧
      (r.monthDays = [] → r.occurrencesAt .weekly start = r.occurrencesAt .daily start) ∧
      r.occurrencesAt .monthly start = (r.occurrencesAt .daily start).filter (fun t =>
        (r.withFrequency .monthly).reaches start.date t.date) ∧
      (start.ExactFrom → r.occurrencesAt .monthly start = r.occurrencesAt .daily start) := by
  have hselects (f : Frequency) (d : Date) := selects_eq_daily hdays hplain f start.date d
  refine ⟨?_, ?_, ?_, ?_⟩
  · exact occurrencesAt_eq_of_reaches hinterval hweek hpositions hdeadline (hselects _)
      (fun _ => rfl) (fun _ _ => rfl) (fun _ _ => rfl)
  · intro _
    exact occurrencesAt_eq_of_reaches hinterval hweek hpositions hdeadline (hselects _)
      (fun _ => rfl) (fun _ _ => rfl) (fun _ _ => rfl)
  · exact occurrencesAt_eq_filter hinterval hweek hpositions hdeadline (hselects _)
      (fun _ => rfl) (fun _ _ => rfl)
  · exact occurrencesAt_eq_of_exactFrom hinterval hweek hpositions hdeadline (hselects _)
      (fun _ => rfl) (fun _ _ => rfl)

/-- The finer frequencies agree as far as the times are listed. -/
theorem agree_of_times (hseconds : r.seconds ≠ []) (start : DateTime) :
    r.occurrencesAt .secondly start = r.occurrencesAt .minutely start ∧
      (r.minutes ≠ [] →
        r.occurrencesAt .minutely start = r.occurrencesAt .hourly start ∧
        (r.hours ≠ [] →
          r.occurrencesAt .hourly start = (r.occurrencesAt .daily start).filter (fun t =>
            (r.withFrequency .hourly).reaches start.date t.date) ∧
          (start.ExactFrom →
            r.occurrencesAt .hourly start = r.occurrencesAt .daily start))) := by
  -- All four select the same days, because they fall back on every day.
  have hreaches (f : Frequency) (t : DateTime) (ht : t ∈ r.occurrencesAt f start) :
      (r.withFrequency f).reaches start.date t.date = true :=
    reaches_of_mem_toList_occurrences ht
  refine ⟨?_, fun hminutes => ⟨?_, fun hhours => ⟨?_, ?_⟩⟩⟩
  · exact occurrencesAt_eq_of_reaches hinterval hweek hpositions hdeadline
      (selects_withFrequency_eq (.inr rfl) (.inr fun _ => rfl))
      (admitsTime_secondly_eq_minutely hseconds _) (fun _ h => h) (hreaches .minutely)
  · exact occurrencesAt_eq_of_reaches hinterval hweek hpositions hdeadline
      (selects_withFrequency_eq (.inr rfl) (.inr fun _ => rfl))
      (admitsTime_minutely_eq_hourly hminutes _) (fun _ h => h) (hreaches .hourly)
  · exact occurrencesAt_eq_filter hinterval hweek hpositions hdeadline
      (selects_withFrequency_eq (.inr rfl) (.inr fun _ => rfl))
      (admitsTime_hourly_eq_daily hhours _) (fun _ _ => rfl)
  · exact occurrencesAt_eq_of_exactFrom hinterval hweek hpositions hdeadline
      (selects_withFrequency_eq (.inr rfl) (.inr fun _ => rfl))
      (admitsTime_hourly_eq_daily hhours _) (fun _ _ => rfl)

/-- Monthly and yearly rules agree where months and days are listed, with or without ordinals. -/
theorem agree_of_months (hmonths : r.months ≠ []) (hdays : r.monthDays ≠ [] ∨ r.weekdays ≠ [])
    (start : DateTime) :
    r.occurrencesAt .monthly start = (r.occurrencesAt .yearly start).filter (fun t =>
        (r.withFrequency .monthly).reaches start.date t.date) ∧
      (start.ExactFrom → r.occurrencesAt .monthly start = r.occurrencesAt .yearly start) := by
  have hselects := selects_monthly_eq_yearly hmonths hdays start.date
  constructor
  · exact occurrencesAt_eq_filter hinterval hweek hpositions hdeadline hselects
      (fun _ => rfl) (fun _ _ => rfl)
  · exact occurrencesAt_eq_of_exactFrom hinterval hweek hpositions hdeadline hselects
      (fun _ => rfl) (fun _ _ => rfl)

end AllFrequencies

/-- Frequencies agree where a rule without an interval, set positions and a deadline lists
what they would otherwise read differently.

* If it lists days of the month or plain weekdays, the daily, monthly and yearly sequences
  are the same, and the weekly one is if there are no days of the month.
* If it lists seconds, the secondly and minutely sequences are the same; if it lists minutes
  too, the hourly one is, and if it lists hours too, the daily one is.
* If it lists months and days of the month or weekdays, with or without ordinals, the monthly
  and yearly sequences are the same.

Where a frequency reaches less, its sequence is that part of the other one; where single
steps from the start are exact, it is all of it. -/
theorem frequencies_agree (hinterval : r.interval = 1) (hweek : r.weekStart = .monday)
    (hpositions : r.setPositions = []) (hdeadline : r.deadline? = none) (start : DateTime) :
    (r.monthDays ≠ [] ∨ r.weekdays ≠ [] → (∀ s ∈ r.weekdays, s.ordinal = none) →
      r.occurrencesAt .yearly start = r.occurrencesAt .daily start ∧
      (r.monthDays = [] → r.occurrencesAt .weekly start = r.occurrencesAt .daily start) ∧
      r.occurrencesAt .monthly start = (r.occurrencesAt .daily start).filter (fun t =>
        (r.withFrequency .monthly).reaches start.date t.date) ∧
      (start.ExactFrom → r.occurrencesAt .monthly start = r.occurrencesAt .daily start)) ∧
    (r.seconds ≠ [] →
      r.occurrencesAt .secondly start = r.occurrencesAt .minutely start ∧
      (r.minutes ≠ [] →
        r.occurrencesAt .minutely start = r.occurrencesAt .hourly start ∧
        (r.hours ≠ [] →
          r.occurrencesAt .hourly start = (r.occurrencesAt .daily start).filter (fun t =>
            (r.withFrequency .hourly).reaches start.date t.date) ∧
          (start.ExactFrom →
            r.occurrencesAt .hourly start = r.occurrencesAt .daily start)))) ∧
    (r.months ≠ [] → r.monthDays ≠ [] ∨ r.weekdays ≠ [] →
      r.occurrencesAt .monthly start = (r.occurrencesAt .yearly start).filter (fun t =>
        (r.withFrequency .monthly).reaches start.date t.date) ∧
      (start.ExactFrom → r.occurrencesAt .monthly start = r.occurrencesAt .yearly start)) := by
  refine ⟨fun hdays hplain => ?_, fun hseconds => ?_, fun hmonths hdays => ?_⟩
  · exact agree_of_days hinterval hweek hpositions hdeadline hdays hplain start
  · exact agree_of_times hinterval hweek hpositions hdeadline hseconds start
  · exact agree_of_months hinterval hweek hpositions hdeadline hmonths hdays start

/-- The first two of the half past nines on the Fridays of March. -/
def fridaysInMarch : Rule :=
  { frequency := .daily, interval := 1, ending := some (.count 2), weekStart := .monday,
    months := [.march], yearDays := [], monthDays := [], weekdays := [⟨.friday, none⟩],
    hours := [9], minutes := [30], seconds := [60, 0], setPositions := [],
    interval_pos := Nat.one_pos }

theorem fridaysInMarch_agree :
    (fridaysInMarch.occurrencesAt .daily januaryEvening).map (fun t =>
        (t.date.number, t.time.secondOfDay)) = [(739311, 34200), (739318, 34200)] ∧
      januaryEvening.ExactFrom ∧
      (fridaysInMarch.occurrencesAt .secondly januaryEvening =
          fridaysInMarch.occurrencesAt .daily januaryEvening ∧
        fridaysInMarch.occurrencesAt .minutely januaryEvening =
          fridaysInMarch.occurrencesAt .daily januaryEvening ∧
        fridaysInMarch.occurrencesAt .hourly januaryEvening =
          fridaysInMarch.occurrencesAt .daily januaryEvening) ∧
      fridaysInMarch.occurrencesAt .weekly januaryEvening =
          fridaysInMarch.occurrencesAt .daily januaryEvening ∧
        fridaysInMarch.occurrencesAt .monthly januaryEvening =
          fridaysInMarch.occurrencesAt .daily januaryEvening ∧
        fridaysInMarch.occurrencesAt .monthly januaryEvening =
          fridaysInMarch.occurrencesAt .yearly januaryEvening := by
  have hexact : januaryEvening.ExactFrom := DateTime.exactFrom_of_year (by decide)
  obtain ⟨hdays, htimes, hmonths⟩ :=
    frequencies_agree (r := fridaysInMarch) rfl rfl rfl rfl januaryEvening
  obtain ⟨-, hweekly, -, hmonthly⟩ := hdays (.inr (by decide)) (by decide)
  obtain ⟨hsecondly, hminutely⟩ := htimes (by decide)
  obtain ⟨hhourly, hdaily⟩ := hminutely (by decide)
  have hhours := (hdaily (by decide)).2 hexact
  refine ⟨by decide +kernel, hexact, ⟨?_, ?_, hhours⟩, hweekly rfl, hmonthly hexact,
    (hmonths (by decide) (.inr (by decide))).2 hexact⟩
  · rw [hsecondly, hhourly, hhours]
  · rw [hhourly, hhours]

end Rule
end Timetable
