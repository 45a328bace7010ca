import Timetable.Proofs.Rule.Sequence

/-!
# What occurs

A rule whose periods are days, weeks, months or years, with no end and no set positions,
occurs at a datetime from the start on if and only if its date is selected, its time is one
of those into which the rule expands a day, and the date lies in one of the rule's periods:
`mem_toList_occurrences_iff`.

The periods of a daily rule without an interval are all days from the start on, and those of
a monthly rule are all months for two thousand years and more.
-/

namespace Timetable

open Civil

namespace Rule

variable {r : Rule} {start t : DateTime}

/-- Whether a date lies in one of the periods of a rule that is not finer than a day. -/
def ReachesDate (r : Rule) (start date : Date) : Prop :=
  ∃ k first days, r.span? start k = some (first, days) ∧
    first.number ≤ date.number ∧ date.number < first.number + days

/-- When a rule that is not finer than a day occurs. -/
theorem mem_toList_occurrences_iff (hunit : r.frequency.unitSeconds? = none)
    (hending : r.ending = none) (hpositions : r.setPositions = []) :
    t ∈ (r.occurrences start).toList ↔
      start ≤ t ∧ r.ReachesDate start.date t.date ∧ r.selects start.date t.date = true ∧
        t ∈ r.datetimesOn start.time t.date := by
  have hperiod (k : Nat) : r.wholePeriod? start k = r.spanPeriod? start k := by
    rw [wholePeriod?, hunit]
  rw [toList_occurrences_of_ending_eq_none hending, mem_offers_iff]
  constructor
  · rintro ⟨k, hk⟩
    have hstart := start_le_of_mem_offer hk
    obtain ⟨whole, hwhole, ht⟩ := exists_wholePeriod?_of_mem_offer hk
    rw [hperiod] at hwhole
    obtain ⟨first, days, hspan, -⟩ := spanPeriod?_cases hwhole
    obtain ⟨hfirst, hlast, hselects, hmem⟩ := (mem_candidates_of_spanPeriod? hwhole hspan).mp ht
    exact ⟨hstart, ⟨k, first, days, hspan, hfirst, hlast⟩, hselects, hmem⟩
  · rintro ⟨hstart, ⟨k, first, days, hspan, hfirst, hlast⟩, hselects, hmem⟩
    obtain ⟨whole, hwhole⟩ : ∃ whole, r.spanPeriod? start k = some whole := by
      rw [spanPeriod?, hspan]
      exact ⟨_, rfl⟩
    refine ⟨k, ?_⟩
    rw [offer, period?, hperiod, hwhole]
    show t ∈ (Position.select r.setPositions whole.candidates).filter (start ≤ ·)
    -- Without set positions the whole offer is taken.
    have hall : Position.select r.setPositions whole.candidates = whole.candidates := by
      rw [hpositions]
      rfl
    rw [hall, List.mem_filter, decide_eq_true_eq]
    exact ⟨(mem_candidates_of_spanPeriod? hwhole hspan).mpr ⟨hfirst, hlast, hselects, hmem⟩,
      hstart⟩

variable {date : Date}

/-- Without an interval a daily rule reaches every later date. -/
theorem reachesDate_of_daily {first : Date} (hfrequency : r.frequency = .daily)
    (hinterval : r.interval = 1) (hle : first.number ≤ date.number) :
    r.ReachesDate first date := by
  have hday : first.addDays? ((date.number - first.number).toNat : Int) = some date := by
    rw [Date.addDays?_eq_some_iff]
    omega
  refine ⟨(date.number - first.number).toNat, date, 1, ?_, Int.le_refl _, by omega⟩
  simp only [span?, hfrequency, hinterval, Nat.mul_one, hday, Option.map_some]

/-- Without an interval a monthly rule reaches every later month up to the greatest distance
by which months are moved. -/
theorem reachesDate_of_monthly {first : Date} (hfrequency : r.frequency = .monthly)
    (hinterval : r.interval = 1) (hle : first.yearMonth.index ≤ date.yearMonth.index)
    (hnear : date.yearMonth.index ≤ first.yearMonth.index + YearMonth.greatestShift) :
    r.ReachesDate first date := by
  have hshift : first.yearMonth.later?
      (date.yearMonth.index - first.yearMonth.index).toNat = some date.yearMonth := by
    rw [YearMonth.later?, if_pos (by omega), Option.some.injEq]
    apply YearMonth.index_injective
    rw [YearMonth.index_shift]
    omega
  have hpos := date.yearMonth.one_le_length
  obtain ⟨opening, hbegin⟩ := Date.exists_ofDay? date.yearMonth date.le_year date.year_le
    (Nat.le_refl 1) hpos
  have hnumber : opening.number = date.yearMonth.firstDay := by
    obtain ⟨hmonth, hday⟩ := Date.ofDay?_eq_some_iff.mp hbegin
    rw [opening.number_eq, hmonth, hday]
    omega
  refine ⟨(date.yearMonth.index - first.yearMonth.index).toNat, opening,
    date.yearMonth.length, ?_, ?_, ?_⟩
  · simp only [span?, hfrequency, hinterval, Nat.mul_one, hshift, Option.bind_eq_bind,
      Option.bind_some, hbegin, Option.pure_def]
  · rw [hnumber]
    exact date.firstDay_le_number
  · rw [hnumber]
    exact date.number_lt_firstDay_add_length

end Rule
end Timetable
