import Timetable.Proofs.Rule.Weeks

/-!
# Starts that are occurrences

A start that agrees with every list of a rule (`Rule.Accepts`) lies in the first unit that the
rule looks at, on a selected date and at an admitted time, and nothing comes before it.  So it
is the first occurrence, provided that the first unit can be evaluated at all.

That unit is the start's own, and only a week may begin before the calendar does.  Then the
rule has no occurrences, wherever the start lies in the week:
`occurrences_begin_with_start_iff`.
-/

namespace Timetable

open Civil

namespace Rule

variable {r : Rule} {start t : DateTime} {d : Date}

/-- Whether a datetime agrees with every list of a rule.  A list without values agrees with
everything. -/
structure Accepts (r : Rule) (t : DateTime) : Prop where
  month : r.months = [] ∨ t.date.month ∈ r.months
  yearDay : ListsDay r.yearDays (daysOfYear t.date.year) t.date
  monthDay : ListsDay r.monthDays t.date.yearMonth.days t.date
  weekday : ListsWeekday r.weekdays (r.ordinalDays t.date) t.date
  hour : r.hours = [] ∨ t.time.hour ∈ r.hours
  minute : r.minutes = [] ∨ t.time.minute ∈ r.minutes
  second : r.seconds = [] ∨ t.time.second ∈ r.seconds

/-! ## The start in its own unit -/

/-- The start's day can stand for itself. -/
theorem isStartDay_self (r : Rule) (d : Date) : r.isStartDay d d = true := by
  have hday := Nat.min_eq_left d.day_le_length
  unfold isStartDay
  cases r.frequency <;> simp [hday]

theorem selects_start_of_accepts (h : r.Accepts start) :
    r.selects start.date start.date = true :=
  selects_iff_admits.mpr ⟨admitsMonth_iff.mpr h.month, admitsYearDay_iff_listsDay.mpr h.yearDay,
    admitsMonthDay_iff_listsDay.mpr h.monthDay, admitsWeekday_iff_listsWeekday.mpr h.weekday,
    fun _ => r.isStartDay_self start.date⟩

theorem admitsComponent_self {listed : List Nat} {v : Nat} (h : listed = [] ∨ v ∈ listed)
    (limits : Bool) : admitsComponent listed limits v v = true := by
  rw [admitsComponent_iff]
  by_cases hnil : listed = []
  · exact .inl ⟨hnil, .inr rfl⟩
  · exact .inr ⟨hnil, h.resolve_left hnil⟩

theorem admitsTime_start_of_accepts (h : r.Accepts start) :
    r.admitsTime start.time start.time = true := by
  simp only [admitsTime, admitsComponent_self h.hour, admitsComponent_self h.minute,
    admitsComponent_self h.second, Bool.and_self, decide_true]

theorem reaches_self (r : Rule) (d : Date) : r.reaches d d = true := by
  unfold reaches
  cases r.frequency <;> simp only [decide_eq_true_eq] <;> omega

/-- The start is its own tick. -/
theorem tickOf_start (r : Rule) (start : DateTime) : r.tickOf start start = start := by
  unfold tickOf
  cases r.frequency <;> simp

/-- An accepted start is offered just if its unit begins inside the calendar. -/
theorem start_mem_offers_iff (hpositions : r.setPositions = []) (h : r.Accepts start) :
    start ∈ r.offers start ↔ r.beginsInside start.date = true := by
  rw [mem_offers_iff_dvd hpositions, Int.sub_self]
  constructor
  · rintro ⟨-, hinside, -⟩
    exact hinside
  · intro hinside
    exact ⟨le_refl start, hinside, r.reaches_self start.date, Int.dvd_zero _,
      selects_start_of_accepts h, admitsTime_start_of_accepts h⟩

/-! ## The first occurrence -/

/-- The first unit begins inside the calendar unless it is a week of which no day of the
calendar is the first. -/
theorem beginsInside_iff :
    r.beginsInside d = true ↔
      (r.frequency = .weekly → ∃ first : Date, first.BeginsWeekOf r.weekStart d) := by
  constructor
  · intro hinside hweekly
    simp only [beginsInside, hweekly, ne_eq, not_true_eq_false, decide_false, Bool.false_or,
      Option.isSome_iff_exists, Date.addDays?_eq_some_iff] at hinside
    obtain ⟨first, hfirst⟩ := hinside
    have hsince := d.daysSince_weekday r.weekStart
    refine ⟨first, beginsWeekOf_iff.mpr ?_⟩
    omega
  · intro hweek
    by_cases hweekly : r.frequency = .weekly
    · obtain ⟨first, hfirst⟩ := hweek hweekly
      exact beginsInside_of_beginsWeekOf hfirst
    · exact beginsInside_of_ne_weekly hweekly d

/-- A rule of which the first unit begins before the calendar offers nothing. -/
theorem offers_eq_nil_of_not_beginsInside (h : ¬ r.beginsInside start.date = true) :
    r.offers start = [] := by
  rw [List.eq_nil_iff_forall_not_mem]
  intro t ht
  obtain ⟨k, hk⟩ := mem_offers_iff.mp ht
  exact h (mem_wholeOffer_iff.mp (mem_wholeOffer_of_mem_offer hk)).1

theorem head?_atMost {α : Type} {n : Option Nat} (h : n ≠ some 0) (l : List α) :
    (Occurrences.atMost n l).head? = l.head? := by
  cases n with
  | none => rfl
  | some n =>
      cases n with
      | zero => exact absurd rfl h
      | succ n => cases l <;> rfl

/-- Where the start is offered, an ending that has room for it leaves it the first
occurrence. -/
theorem head?_occurrences_of_mem_offers (hcount : r.count? ≠ some 0)
    (hdeadline : ∀ u ∈ r.deadline?, start ≤ u) (h : start ∈ r.offers start) :
    (r.occurrences start).toList.head? = some start := by
  have hinTime : r.isInTime start start = true := by
    rw [isInTime, tickOf_start, Option.all_eq_true]
    intro u hu
    simp [hdeadline u hu]
  rw [toList_occurrences_eq_atMost, head?_atMost hcount]
  apply Lists.head?_eq_some_of_forall_le ((r.offers_pairwise_lt start).filter _)
  · exact List.mem_filter.mpr ⟨h, hinTime⟩
  · intro t ht
    obtain ⟨k, hk⟩ := mem_offers_iff.mp (List.mem_of_mem_filter ht)
    exact start_le_of_mem_offer hk

/-- A start that every list accepts, and that the ending has room for, is the first occurrence
of a rule without set positions if and only if the rule is not weekly or the start's week
begins inside the calendar.  Otherwise the rule has no occurrences. -/
theorem occurrences_begin_with_start_iff (hpositions : r.setPositions = [])
    (hcount : r.count? ≠ some 0) (hdeadline : ∀ u ∈ r.deadline?, start ≤ u)
    (haccepts : r.Accepts start) :
    ((r.occurrences start).item 0 = some start ↔
        (r.frequency = .weekly → ∃ first : Date, first.BeginsWeekOf r.weekStart start.date)) ∧
      (¬ (r.frequency = .weekly →
          ∃ first : Date, first.BeginsWeekOf r.weekStart start.date) →
        (r.occurrences start).toList = []) := by
  rw [← beginsInside_iff, Occurrences.item_eq_getElem?, ← List.head?_eq_getElem?]
  have hnone (hinside : ¬ r.beginsInside start.date = true) :
      (r.occurrences start).toList = [] := by
    have hsublist := r.toList_occurrences_sublist start
    rw [offers_eq_nil_of_not_beginsInside hinside] at hsublist
    exact List.eq_nil_of_sublist_nil hsublist
  refine ⟨⟨?_, ?_⟩, hnone⟩
  · intro hhead
    by_contra hinside
    simp [hnone hinside] at hhead
  · intro hinside
    exact head?_occurrences_of_mem_offers hcount hdeadline
      ((start_mem_offers_iff hpositions haccepts).mpr hinside)

/-- The second Friday of September 2024 is a 13th: the odd Fridays up to it are this one
alone. -/
theorem oddFridays_begin_with_septemberThe13th :
    (oddFridays.withDeadline septemberThe13th).setPositions = [] ∧
      (oddFridays.withDeadline septemberThe13th).count? ≠ some 0 ∧
      (∀ u ∈ (oddFridays.withDeadline septemberThe13th).deadline?, septemberThe13th ≤ u) ∧
      (oddFridays.withDeadline septemberThe13th).Accepts septemberThe13th ∧
      ((oddFridays.withDeadline septemberThe13th).occurrences septemberThe13th).item 0 =
        some septemberThe13th := by
  have hdeadline : ∀ u ∈ (oddFridays.withDeadline septemberThe13th).deadline?,
      septemberThe13th ≤ u := by
    rintro u ⟨⟩
    exact le_refl _
  have haccepts : (oddFridays.withDeadline septemberThe13th).Accepts septemberThe13th :=
    { month := .inl rfl
      yearDay := .inl rfl
      monthDay := admitsMonthDay_iff_listsDay.mp (by decide +kernel)
      weekday := admitsWeekday_iff_listsWeekday.mp (by decide +kernel)
      hour := .inr (by decide +kernel)
      minute := .inr (by decide +kernel)
      second := .inr (by decide +kernel) }
  have hcount : (oddFridays.withDeadline septemberThe13th).count? ≠ some 0 := by decide
  exact ⟨rfl, hcount, hdeadline, haccepts,
    (occurrences_begin_with_start_iff rfl hcount hdeadline haccepts).1.mpr
      fun hweekly => absurd hweekly (by decide)⟩

/-- Every week, in weeks that begin on Sundays. -/
def sundayWeeks : Rule :=
  { frequency := .weekly, interval := 1, ending := none, weekStart := .sunday, months := [],
    yearDays := [], monthDays := [], weekdays := [], hours := [], minutes := [], seconds := [],
    setPositions := [], interval_pos := Nat.one_pos }

/-- The calendar begins with a Monday, of which the week begins before it. -/
theorem sundayWeeks_lose_calendarStart :
    sundayWeeks.Valid ∧ sundayWeeks.setPositions = [] ∧ sundayWeeks.ending = none ∧
      sundayWeeks.Accepts calendarStart ∧
      (sundayWeeks.occurrences calendarStart).item 0 = none ∧
      ((sundayWeeks.withWeekStart .monday).occurrences calendarStart).item 0 =
        some calendarStart := by
  have haccepts : sundayWeeks.Accepts calendarStart :=
    ⟨.inl rfl, .inl rfl, .inl rfl, .inl rfl, .inl rfl, .inl rfl, .inl rfl⟩
  exact ⟨by decide, rfl, rfl, haccepts, by decide +kernel, by decide +kernel⟩

end Rule
end Timetable
