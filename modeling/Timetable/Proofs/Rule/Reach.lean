import Timetable.Proofs.Rule.TickByTick
import Timetable.Proofs.Rule.Units

/-!
# How far a rule reaches

A rule that is finer than a day gets to each of its ticks by one addition of seconds to the
start, and a monthly rule to each of its months by one addition of months.  Such a step has
a greatest length, so a rule that starts early does not reach the end of the calendar.
`Rule.reaches` is the part of the calendar that is left: it is over at a date, and it
contains a unit wholly or not at all.

`DateTime.ExactFrom` says of a start that no step from it is too long: whatever the calendar
has is found.  It holds from 1970 on, and then every rule reaches everything.
-/

namespace Timetable

open Civil

namespace Civil

/-- Single steps from a datetime are exact: each finds what the calendar has at the
distance, and nothing where the calendar has nothing. -/
structure DateTime.ExactFrom (start : DateTime) : Prop where
  seconds (n : Nat) : start.addSeconds? n = start.later? n
  months (n : Nat) : (start.date.yearMonth.later? n).bind (Date.ofDay? · 1) =
    Date.ofDay? (start.date.yearMonth.shift n) 1

/-- Single steps of months from a date are exact: each finds what the calendar has at the
distance, and nothing where the calendar has nothing. -/
def Date.HasExactMonths (start : Date) : Prop :=
  ∀ n : Nat, (start.yearMonth.later? n).bind (Date.ofDay? · 1) =
    Date.ofDay? (start.yearMonth.shift n) 1

/-- Only in the first year of the calendar are there months from which a single step to the
last ones is too long. -/
theorem Date.hasExactMonths_of_year {start : Date} (h : -9998 ≤ start.year) :
    start.HasExactMonths := by
  intro n
  rw [YearMonth.later?]
  split
  next => rfl
  next hfar =>
    cases hfirst : Date.ofDay? (start.yearMonth.shift n) 1 with
    | none => rfl
    | some first =>
        -- The month would lie behind the last year of the calendar.
        have hmonth := (Date.ofDay?_eq_some_iff.mp hfirst).1
        have hindex := YearMonth.index_shift start.yearMonth n
        have hlast := first.year_le
        have hpos := start.yearMonth.month.one_le_number
        have hle := first.yearMonth.month.number_le
        have hgreatest : YearMonth.greatestShift = 239976 := rfl
        rw [← hmonth, YearMonth.index, YearMonth.index, Date.yearMonth_year,
          Date.yearMonth_year] at hindex
        omega

/-- Where single steps of months are exact, none to a later date is too long. -/
theorem Date.HasExactMonths.index_le {start d : Date} (h : start.HasExactMonths)
    (hle : start.number ≤ d.number) :
    d.yearMonth.index ≤ start.yearMonth.index + YearMonth.greatestShift := by
  obtain ⟨months, hmonths⟩ :
      ∃ months : Nat, d.yearMonth.index = start.yearMonth.index + months :=
    ⟨(d.yearMonth.index - start.yearMonth.index).toNat, by
      have := Date.index_le_of_number_le hle
      omega⟩
  have hmonth : start.yearMonth.shift months = d.yearMonth := by
    apply YearMonth.index_injective
    rw [YearMonth.index_shift, hmonths]
  obtain ⟨first, hfirst⟩ := Date.exists_ofDay? d.yearMonth d.le_year d.year_le
    (Nat.le_refl 1) d.yearMonth.one_le_length
  have hexact := h months
  rw [hmonth, hfirst, YearMonth.later?] at hexact
  split at hexact
  next hnear => omega
  next => simp at hexact

theorem DateTime.exactFrom_of_year {start : DateTime} (h : 1970 ≤ start.date.year) :
    start.ExactFrom where
  seconds n := by
    rw [addSeconds?_eq_later?]
    split
    next => rfl
    next hfar =>
      cases hlater : start.later? n with
      | none => rfl
      | some u => exact absurd (reaches_of_later? h hlater) hfar
  months := Date.hasExactMonths_of_year (by omega)

end Civil

namespace Rule

variable {r : Rule} {start t u : DateTime} {d e : Date}

/-- A start that is not earlier reaches what is not later. -/
theorem reaches_mono {first later : Date} (hfirst : first.number ≤ later.number)
    (hle : d.number ≤ e.number) (h : r.reaches first e = true) : r.reaches later d = true := by
  have hstartMonths := Date.index_le_of_number_le hfirst
  have hmonths := Date.index_le_of_number_le hle
  unfold reaches at h ⊢
  cases hfrequency : r.frequency <;> simp only [hfrequency, decide_eq_true_eq] at h ⊢ <;> omega

/-- A unit is reached wholly or not at all. -/
theorem reaches_eq_of_unitNumber_eq (h : r.unitNumber t = r.unitNumber u) (first : Date) :
    r.reaches first t.date = r.reaches first u.date := by
  have ht := t.time.secondOfDay_lt
  have hu := u.time.secondOfDay_lt
  unfold unitNumber at h
  unfold reaches
  cases hfrequency : r.frequency <;>
    simp only [hfrequency, DateTime.wholeSeconds, decide_eq_decide] at h ⊢ <;> omega

/-- A rule occurs only where it reaches. -/
theorem reaches_of_mem_toList_occurrences (h : t ∈ (r.occurrences start).toList) :
    r.reaches start.date t.date = true := by
  obtain ⟨k, hk⟩ := mem_offers_iff.mp ((r.toList_occurrences_sublist start).subset h)
  exact (mem_wholeOffer_iff.mp (mem_wholeOffer_of_mem_offer hk)).2.1

/-- Where single steps are exact, every rule reaches everything. -/
theorem reaches_of_exactFrom (h : start.ExactFrom) (hle : start.date.number ≤ d.number) :
    r.reaches start.date d = true := by
  have hdays : d.number ≤ start.date.number + DateTime.greatestDays := by
    -- The date is found after the whole days that have passed.
    obtain ⟨days, hdays⟩ : ∃ days : Nat, d.number = start.date.number + days :=
      ⟨(d.number - start.date.number).toNat, by omega⟩
    have htime := start.time.secondOfDay_lt
    have hlater : start.later? (86400 * days) = some ⟨d, start.time⟩ := by
      have hday : start.date.addDays? ((start.time.secondOfDay + 86400 * days) / 86400 : Nat) =
          some d := by
        rw [Date.addDays?_eq_some_iff]
        omega
      have hsecond : (start.time.secondOfDay + 86400 * days) % 86400 =
          start.time.secondOfDay := by omega
      simp only [DateTime.later?, hday, hsecond, Time.withSecondOfDay?, htime]
      rfl
    rw [← h.seconds, DateTime.addSeconds?_eq_some_iff] at hlater
    have hreach := hlater.1
    omega
  have hmonths : d.yearMonth.index ≤ start.date.yearMonth.index + YearMonth.greatestShift :=
    Date.HasExactMonths.index_le h.months hle
  unfold reaches
  cases r.frequency <;> simp only [decide_eq_true_eq] <;> assumption

end Rule
end Timetable
