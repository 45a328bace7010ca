import Timetable.Proofs.Rule.Meaning

/-!
# What weekly rules mean

Weeks begin on the day that a rule says, so a week is known by its first day
(`Date.BeginsWeekOf`).  A weekly rule counts the weeks from the one of the start; if that one
begins before the calendar does, there is nothing to count from.  Otherwise `OccursWeekly` says
when the rule occurs.
-/

namespace Timetable

open Civil

namespace Civil

/-- Whether `first` is the first day of the week of a date, in weeks that begin on days of a
name. -/
structure Date.BeginsWeekOf (first : Date) (weekStart : Weekday) (d : Date) : Prop where
  weekday : first.weekday = weekStart
  le : first.number ≤ d.number
  lt : d.number < first.number + 7

end Civil

namespace Rule

variable {r : Rule} {start t : DateTime} {first d : Date}

/-- The same rule in weeks that begin on another day. -/
def withWeekStart (r : Rule) (weekStart : Weekday) : Rule :=
  { r with weekStart }

/-- When a weekly rule occurs.  `first` is the first day of the week of the start. -/
structure OccursWeekly (r : Rule) (first : Date) (start t : DateTime) : Prop extends
    r.FollowsStart start t where
  interval_dvd : ∃ own : Date, own.BeginsWeekOf r.weekStart t.date ∧
    (7 * r.interval : Int) ∣ own.number - first.number
  weekday : t.date.weekday ∈
    if r.weekdays = [] then [start.date.weekday] else r.weekdays.map WeekdaySelector.weekday

theorem beginsWeekOf_iff {weekStart : Weekday} :
    first.BeginsWeekOf weekStart d ↔
      first.number = 7 * ((d.number + 6 - weekStart.number) / 7) + weekStart.number - 6 := by
  have hnumber := first.number_weekday
  have hpos := weekStart.one_le_number
  have hle := weekStart.number_le
  constructor
  · intro h
    have hbefore := h.le
    have hafter := h.lt
    rw [h.weekday] at hnumber
    omega
  · intro h
    refine ⟨Weekday.number_injective ?_, ?_, ?_⟩ <;> omega

/-- The week of a later date begins in the calendar if that of an earlier one does. -/
theorem exists_beginsWeekOf {weekStart : Weekday} {e : Date} (h : first.BeginsWeekOf weekStart d)
    (hle : d.number ≤ e.number) : ∃ own : Date, own.BeginsWeekOf weekStart e := by
  have hnumber := beginsWeekOf_iff.mp h
  have hfirst := first.first_le
  have hlast := e.le_last
  have hpos := weekStart.one_le_number
  have hle' := weekStart.number_le
  obtain ⟨own, hown⟩ : ∃ own : Date, own.number =
      7 * ((e.number + 6 - weekStart.number) / 7) + weekStart.number - 6 :=
    ⟨⟨_, by omega, by omega⟩, rfl⟩
  exact ⟨own, beginsWeekOf_iff.mpr hown⟩

theorem beginsInside_of_beginsWeekOf (h : first.BeginsWeekOf r.weekStart d) :
    r.beginsInside d = true := by
  have hsince := d.daysSince_weekday r.weekStart
  have hnumber := beginsWeekOf_iff.mp h
  have hweek : d.addDays? (-(d.weekday.daysSince r.weekStart : Int)) = some first := by
    rw [Date.addDays?_eq_some_iff]
    omega
  rw [beginsInside, hweek]
  simp

/-- The weeks between two dates, by the numbers of their weeks. -/
theorem dvd_unitNumber_sub_iff (hfrequency : r.frequency = .weekly)
    (hstart : first.BeginsWeekOf r.weekStart start.date)
    (hle : start.date.number ≤ t.date.number) :
    (r.interval : Int) ∣ r.unitNumber t - r.unitNumber start ↔
      ∃ own : Date, own.BeginsWeekOf r.weekStart t.date ∧
        (7 * r.interval : Int) ∣ own.number - first.number := by
  have hnumber := beginsWeekOf_iff.mp hstart
  have hweeks {own : Date} (hown : own.BeginsWeekOf r.weekStart t.date) :
      own.number - first.number = 7 * (r.unitNumber t - r.unitNumber start) := by
    have hnumber' := beginsWeekOf_iff.mp hown
    simp only [unitNumber, hfrequency]
    omega
  constructor
  · intro hdvd
    obtain ⟨own, hown⟩ := exists_beginsWeekOf hstart hle
    refine ⟨own, hown, ?_⟩
    rw [hweeks hown]
    exact Int.mul_dvd_mul_left 7 hdvd
  · rintro ⟨own, hown, hdvd⟩
    rw [hweeks hown] at hdvd
    exact Int.dvd_of_mul_dvd_mul_left (by decide) hdvd

/-- A weekly rule whose first week begins inside the calendar, by the numbers of the weeks. -/
theorem mem_occurrences_iff_of_weekly (hvalid : r.Valid) (hfrequency : r.frequency = .weekly)
    (hending : r.ending = none) (hpositions : r.setPositions = [])
    (hinside : r.beginsInside start.date = true) :
    t ∈ (r.occurrences start).toList ↔
      r.FollowsStart start t ∧ (r.interval : Int) ∣ r.unitNumber t - r.unitNumber start ∧
        t.date.weekday ∈ if r.weekdays = [] then [start.date.weekday]
          else r.weekdays.map WeekdaySelector.weekday := by
  have hunit : r.frequency.unitSeconds? = none := by
    rw [hfrequency]
    rfl
  have hreaches : r.reaches start.date t.date = true := by
    rw [reaches, hfrequency]
  have hplain := hvalid.ordinal_eq_none (by rw [hfrequency]; rfl)
  have hyearDays := hvalid.yearDays_eq_nil (by rw [hfrequency]; decide)
  have hmonthDays := hvalid.monthDays_eq_nil hfrequency
  have hownDay : r.isStartDay start.date t.date = true ↔
      t.date.weekday = start.date.weekday := by
    rw [isStartDay, hfrequency, decide_eq_true_eq]
  -- If no weekdays are listed, the start's own one is.
  have hweekday : ListsWeekday r.weekdays (r.ordinalDays t.date) t.date ∧
        (r.yearDays = [] ∧ r.monthDays = [] ∧ r.weekdays = [] →
          r.isStartDay start.date t.date = true) ↔
      t.date.weekday ∈ if r.weekdays = [] then [start.date.weekday]
        else r.weekdays.map WeekdaySelector.weekday := by
    rw [listsWeekday_iff_of_plain hplain, hownDay]
    by_cases hweekdays : r.weekdays = []
    · simp [hyearDays, hmonthDays, hweekdays]
    · simp [hweekdays]
  rw [mem_occurrences_iff_followsStart hunit hending hpositions, hweekday]
  constructor
  · rintro ⟨hfollows, -, -, hdvd, -, -, hday⟩
    exact ⟨hfollows, hdvd, hday⟩
  · rintro ⟨hfollows, hdvd, hday⟩
    exact ⟨hfollows, hinside, hreaches, hdvd, .inl hyearDays, .inl hmonthDays, hday⟩

/-- Without an interval every week counts, and on the start's weekday whole weeks have passed,
on whatever day they begin. -/
theorem dvd_unitNumber_sub_iff_of_weekStart (hfrequency : r.frequency = .weekly)
    (hfree : r.interval = 1 ∨ t.date.weekday = start.date.weekday) (weekStart : Weekday) :
    (r.interval : Int) ∣
        (r.withWeekStart weekStart).unitNumber t - (r.withWeekStart weekStart).unitNumber start ↔
      (r.interval : Int) ∣ r.unitNumber t - r.unitNumber start := by
  rcases hfree with hinterval | hsame
  · rw [hinterval]
    exact iff_of_true (Int.one_dvd _) (Int.one_dvd _)
  · rw [Date.weekday_eq_iff] at hsame
    have hweeks : (r.withWeekStart weekStart).unitNumber t -
          (r.withWeekStart weekStart).unitNumber start =
        r.unitNumber t - r.unitNumber start := by
      simp only [unitNumber, withWeekStart, hfrequency]
      omega
    rw [hweeks]

/-- A weekly rule without an ending and set positions, followed from a start whose week begins
inside the calendar, has the occurrences that its lists describe.  On what day weeks begin
makes no difference if the rule has no interval or lists no weekdays. -/
theorem mem_occurrences_iff_occursWeekly (hvalid : r.Valid) (hfrequency : r.frequency = .weekly)
    (hending : r.ending = none) (hpositions : r.setPositions = [])
    (hweek : first.BeginsWeekOf r.weekStart start.date) :
    (∀ t, t ∈ (r.occurrences start).toList ↔ r.OccursWeekly first start t) ∧
    (r.interval = 1 ∨ r.weekdays = [] → ∀ weekStart,
      (∃ other : Date, other.BeginsWeekOf weekStart start.date) →
        ((r.withWeekStart weekStart).occurrences start).toList =
          (r.occurrences start).toList) := by
  have hmem (t : DateTime) := mem_occurrences_iff_of_weekly (t := t) hvalid hfrequency hending
    hpositions (beginsInside_of_beginsWeekOf hweek)
  constructor
  · intro t
    rw [hmem]
    constructor
    · rintro ⟨hfollows, hdvd, hday⟩
      have hle := DateTime.number_le_of_le hfollows.start_le
      exact ⟨hfollows, (dvd_unitNumber_sub_iff hfrequency hweek hle).mp hdvd, hday⟩
    · intro h
      have hle := DateTime.number_le_of_le h.start_le
      exact ⟨h.toFollowsStart, (dvd_unitNumber_sub_iff hfrequency hweek hle).mpr h.interval_dvd,
        h.weekday⟩
  · rintro hfree weekStart ⟨other, hother⟩
    have hmem' (t : DateTime) := mem_occurrences_iff_of_weekly
      (r := r.withWeekStart weekStart) (t := t) hvalid hfrequency hending hpositions
      (beginsInside_of_beginsWeekOf hother)
    apply (toList_occurrences_pairwise_lt _ _).eq_of_mem_iff (toList_occurrences_pairwise_lt _ _)
    intro t
    -- The first day of the week only enters through the distance in weeks.
    have hfollows : (r.withWeekStart weekStart).FollowsStart start t ↔ r.FollowsStart start t :=
      ⟨fun h => ⟨h.1, h.2, h.3, h.4, h.5, h.6⟩, fun h => ⟨h.1, h.2, h.3, h.4, h.5, h.6⟩⟩
    rw [hmem, hmem', hfollows]
    apply and_congr_right
    intro _
    apply and_congr_left
    intro hday
    apply dvd_unitNumber_sub_iff_of_weekStart hfrequency
    apply hfree.imp_right
    intro hweekdays
    rw [if_pos (show (r.withWeekStart weekStart).weekdays = [] from hweekdays),
      List.mem_singleton] at hday
    exact hday

/-- Tuesday and Sunday of every other week, in weeks that begin on Sundays. -/
def alternateWeeks : Rule :=
  { frequency := .weekly, interval := 2, ending := none, weekStart := .sunday, months := [],
    yearDays := [], monthDays := [], weekdays := [⟨.tuesday, none⟩, ⟨.sunday, none⟩],
    hours := [], minutes := [], seconds := [], setPositions := [], interval_pos := Nat.two_pos }

/-- The same weeks, on the start's own weekday. -/
def alternateTuesdays : Rule :=
  { alternateWeeks with weekdays := [] }

/-- Tuesday, 5 August 1997, in the morning. -/
def august1997 : DateTime :=
  (DateTime.ofReading? 1997 8 5 9 0 0 0).get (by decide)

/-- The second Sunday after that Tuesday. -/
def twoSundaysLater : DateTime :=
  (DateTime.ofReading? 1997 8 17 9 0 0 0).get (by decide)

/-- A Sunday belongs to the Tuesday after it, or in weeks that begin on Mondays to the one
before it.  Alone the Tuesdays are the same in both. -/
theorem alternateWeeks_occur :
    alternateWeeks.Valid ∧ alternateWeeks.frequency = .weekly ∧
      alternateWeeks.ending = none ∧ alternateWeeks.setPositions = [] ∧
      (alternateWeeks.occurrences august1997).item 1 = some twoSundaysLater ∧
      ((alternateWeeks.withWeekStart .monday).occurrences august1997).item 1 ≠
        some twoSundaysLater ∧
      ∃ first monday : Date, first.BeginsWeekOf .sunday august1997.date ∧
        monday.BeginsWeekOf .monday august1997.date ∧
        alternateWeeks.OccursWeekly first august1997 twoSundaysLater ∧
        ((alternateTuesdays.withWeekStart .monday).occurrences august1997).toList =
          (alternateTuesdays.occurrences august1997).toList := by
  have hvalid : alternateWeeks.Valid := by decide +kernel
  have hvalid' : alternateTuesdays.Valid := by decide +kernel
  have hitem : (alternateWeeks.occurrences august1997).item 1 = some twoSundaysLater := by
    decide +kernel
  obtain ⟨first, hfirst⟩ : ∃ first : Date, first.BeginsWeekOf .sunday august1997.date :=
    ⟨⟨729604, by decide, by decide⟩, by decide +kernel, by decide +kernel, by decide +kernel⟩
  obtain ⟨monday, hmonday⟩ : ∃ monday : Date, monday.BeginsWeekOf .monday august1997.date :=
    ⟨⟨729605, by decide, by decide⟩, by decide +kernel, by decide +kernel, by decide +kernel⟩
  refine ⟨hvalid, rfl, rfl, rfl, hitem, by decide +kernel, first, monday, hfirst, hmonday, ?_, ?_⟩
  · apply ((mem_occurrences_iff_occursWeekly hvalid rfl rfl rfl hfirst).1 _).mp
    exact Occurrences.mem_toList_of_item_eq_some hitem
  · exact (mem_occurrences_iff_occursWeekly hvalid' rfl rfl rfl hfirst).2 (.inr rfl) .monday
      ⟨monday, hmonday⟩

end Rule
end Timetable
