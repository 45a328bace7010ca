import Timetable.Proofs.Civil.Calendar
import Timetable.Proofs.Rule.Clock
import Timetable.Rule.Occurrences

/-!
# Days, weeks, months and years

The periods of a rule that is not finer than a day are spans of consecutive days.  Counted
through all distances from the start, spans of one frequency follow each other without a
gap: a span ends where the one at the next distance begins.  `spanBegin` is the number of a
span's first day, wherever it lies, and `Rule.span?` is the part of the sequence of spans
that lies inside the calendar.

A daily rule passes over the days of a refused month, and over nothing else.
-/

namespace Timetable

open Civil

namespace Rule

/-- The number of the first day of the span a distance of `n` days, weeks, months or years
after that of the start. -/
def spanBegin (r : Rule) (start : Date) (n : Nat) : Int :=
  match r.frequency with
  | .weekly => start.number - start.weekday.daysSince r.weekStart + 7 * n
  | .monthly => (start.yearMonth.shift n).firstDay
  | .yearly => daysBeforeYear (start.year + n)
  | _ => start.number + n

private theorem number_of_ofDay?_one {ym : YearMonth} {d : Date}
    (h : Date.ofDay? ym 1 = some d) : d.number = ym.firstDay := by
  obtain ⟨hmonth, hday⟩ := Date.ofDay?_eq_some_iff.mp h
  rw [d.number_eq, hmonth, hday]
  omega

private theorem firstDay_january (year : Int) :
    YearMonth.firstDay ⟨year, .january⟩ = daysBeforeYear year := by
  simp [YearMonth.firstDay, Month.daysBefore]

/-- A span inside the calendar begins at its number and ends where the next one begins. -/
theorem begin_end_of_span? {r : Rule} {start first : Date} {k days : Nat}
    (h : r.span? start k = some (first, days)) :
    first.number = r.spanBegin start (k * r.interval) ∧
      first.number + days = r.spanBegin start (k * r.interval + 1) := by
  unfold span? at h
  unfold spanBegin
  cases hfrequency : r.frequency <;>
    simp only [hfrequency, Option.bind_eq_bind, Option.bind_eq_some_iff, Option.map_eq_some_iff,
      Option.pure_def, Option.some.injEq, Prod.mk.injEq, Date.addDays?_eq_some_iff,
      YearMonth.later?, Option.ite_none_right_eq_some] at h ⊢
  case weekly =>
    obtain ⟨week, hweek, _, hfirst, rfl, rfl⟩ := h
    omega
  case monthly =>
    obtain ⟨month, ⟨-, rfl⟩, _, hfirst, rfl, rfl⟩ := h
    have hnumber := number_of_ofDay?_one hfirst
    refine ⟨hnumber, ?_⟩
    -- The month a distance of one later is the next one.
    rw [hnumber]
    apply YearMonth.firstDay_add_length
    rw [YearMonth.index_shift, YearMonth.index_shift]
    omega
  case yearly =>
    obtain ⟨_, hfirst, rfl, rfl⟩ := h
    have hnumber := number_of_ofDay?_one hfirst
    rw [firstDay_january] at hnumber
    have hsucc := daysBeforeYear_succ (start.year + (k * r.interval : Nat))
    rw [Int.add_assoc] at hsucc
    constructor
    · exact hnumber
    · rw [hnumber]
      exact hsucc.symm
  all_goals
    obtain ⟨_, hday, rfl, rfl⟩ := h
    omega

theorem spanBegin_lt_succ (r : Rule) (start : Date) (n : Nat) :
    r.spanBegin start n < r.spanBegin start (n + 1) := by
  unfold spanBegin
  cases r.frequency
  case monthly =>
    have hnext : (start.yearMonth.shift (n + 1 : Nat)).index =
        (start.yearMonth.shift n).index + 1 := by
      rw [YearMonth.index_shift, YearMonth.index_shift]
      omega
    have hend := YearMonth.firstDay_add_length hnext
    have hlength := YearMonth.one_le_length (start.yearMonth.shift n)
    dsimp only
    omega
  case yearly =>
    have hsucc := daysBeforeYear_succ (start.year + n)
    rw [Int.add_assoc] at hsucc
    have hdays : 0 < daysInYear (start.year + n) := by
      unfold daysInYear
      split <;> decide
    show daysBeforeYear (start.year + n) < daysBeforeYear (start.year + (n + 1 : Nat))
    rw [Int.natCast_add, Int.natCast_one, hsucc]
    omega
  all_goals
    dsimp only
    omega

/-- Spans at greater distances begin later. -/
theorem spanBegin_le_of_le (r : Rule) (start : Date) {m n : Nat} (h : m ≤ n) :
    r.spanBegin start m ≤ r.spanBegin start n := by
  induction h with
  | refl => exact Int.le_refl _
  | step _ ih => exact Int.le_trans ih (Int.le_of_lt (r.spanBegin_lt_succ start _))

/-- Of two spans the earlier one is over when the later one begins. -/
theorem end_le_begin_of_span? {r : Rule} {start first first' : Date} {k j days days' : Nat}
    (hk : r.span? start k = some (first, days))
    (hj : r.span? start j = some (first', days')) (hkj : k < j) :
    first.number + days ≤ first'.number := by
  obtain ⟨-, hend⟩ := begin_end_of_span? hk
  obtain ⟨hbegin, -⟩ := begin_end_of_span? hj
  rw [hend, hbegin]
  apply spanBegin_le_of_le
  have hlt := Nat.mul_lt_mul_of_pos_right hkj r.interval_pos
  omega

/-- Between two dates of the calendar every number is that of a date. -/
private theorem exists_date_between {d e : Date} {n : Int} (hd : d.number ≤ n)
    (he : n ≤ e.number) : ∃ f : Date, f.number = n := by
  have hfirst := d.first_le
  have hlast := e.le_last
  exact ⟨⟨n, by omega, by omega⟩, rfl⟩

/-- Between two spans inside the calendar all spans are inside. -/
theorem isSome_span?_of_le {r : Rule} {start : Date} {k j : Nat} (hkj : k ≤ j)
    (hj : (r.span? start j).isSome) : (r.span? start k).isSome := by
  -- Whatever the frequency, the earlier span begins between the start and the later one.
  have hle := Nat.mul_le_mul_right r.interval hkj
  have hyear := start.le_year
  obtain ⟨⟨_, _⟩, hspan⟩ := Option.isSome_iff_exists.mp hj
  unfold span? at hspan ⊢
  cases hfrequency : r.frequency <;>
    simp only [hfrequency, Option.isSome_iff_exists, Option.bind_eq_bind,
      Option.bind_eq_some_iff, Option.map_eq_some_iff, Option.pure_def, Option.some.injEq,
      Date.addDays?_eq_some_iff, YearMonth.later?, Option.ite_none_right_eq_some,
      Prod.mk.injEq] at hspan ⊢
  case weekly =>
    obtain ⟨week, hweek, last, hlast, -, -⟩ := hspan
    obtain ⟨first, hfirst⟩ := exists_date_between
      (d := week) (e := last) (n := week.number + (7 * (k * r.interval) : Nat))
      (by omega) (by omega)
    exact ⟨_, week, hweek, first, hfirst, rfl⟩
  case monthly =>
    obtain ⟨month, ⟨hshift, rfl⟩, last, hlast, -, -⟩ := hspan
    have hlastYear := last.year_le
    rw [← Date.yearMonth_year, (Date.ofDay?_eq_some_iff.mp hlast).1] at hlastYear
    have hbefore := start.yearMonth.year_le_year_shift (Nat.zero_le (k * r.interval))
    have hafter := start.yearMonth.year_le_year_shift hle
    rw [Int.natCast_zero, YearMonth.shift_zero, Date.yearMonth_year] at hbefore
    obtain ⟨first, hfirst⟩ := Date.exists_ofDay?
      (start.yearMonth.shift (k * r.interval : Nat)) (by omega) (by omega)
      (Nat.le_refl 1) (YearMonth.one_le_length _)
    exact ⟨_, _, ⟨by omega, rfl⟩, first, hfirst, rfl⟩
  case yearly =>
    obtain ⟨last, hlast, -, -⟩ := hspan
    have hlastYear := last.year_le
    rw [← Date.yearMonth_year, (Date.ofDay?_eq_some_iff.mp hlast).1] at hlastYear
    obtain ⟨first, hfirst⟩ := Date.exists_ofDay?
      ⟨start.year + (k * r.interval : Nat), .january⟩
      (by dsimp only; omega) (by dsimp only at *; omega) (Nat.le_refl 1)
      (YearMonth.one_le_length _)
    exact ⟨_, first, hfirst, rfl⟩
  all_goals
    obtain ⟨last, hlast, -, -⟩ := hspan
    obtain ⟨first, hfirst⟩ := exists_date_between
      (d := start) (e := last) (n := start.number + (k * r.interval : Nat))
      (by omega) (by omega)
    exact ⟨_, first, hfirst, rfl⟩

/-- What the evaluation of a span does: it offers the datetimes of the selected days and
goes on to the next span, or past a refused month. -/
theorem spanPeriod?_cases {r : Rule} {start : DateTime} {k : Nat} {p : Period}
    (h : r.spanPeriod? start k = some p) :
    ∃ first days, r.span? start.date k = some (first, days) ∧
      p.floor = DateTime.midnightOf first ∧
      p.candidates = ((Date.run first.number days).filter (r.selects start.date)).flatMap
        (r.datetimesOn start.time) ∧
      p.following = k + r.advance first := by
  simp only [spanPeriod?, Option.map_eq_some_iff] at h
  obtain ⟨⟨first, days⟩, hspan, rfl⟩ := h
  exact ⟨first, days, hspan, rfl, rfl, rfl⟩

theorem mem_candidates_of_spanPeriod? {r : Rule} {start t : DateTime} {k days : Nat}
    {first : Date} {p : Period} (h : r.spanPeriod? start k = some p)
    (hspan : r.span? start.date k = some (first, days)) :
    t ∈ p.candidates ↔
      first.number ≤ t.date.number ∧ t.date.number < first.number + days ∧
        r.selects start.date t.date = true ∧ t ∈ r.datetimesOn start.time t.date := by
  obtain ⟨first', days', hspan', -, hcandidates, -⟩ := spanPeriod?_cases h
  rw [hspan, Option.some.injEq, Prod.mk.injEq] at hspan'
  obtain ⟨rfl, rfl⟩ := hspan'
  simp only [hcandidates, List.mem_flatMap, List.mem_filter, Date.mem_run_iff]
  constructor
  · rintro ⟨date, ⟨⟨hle, hlt⟩, hselects⟩, ht⟩
    obtain rfl := (mem_datetimesOn_iff.mp ht).1
    exact ⟨hle, hlt, hselects, ht⟩
  · rintro ⟨hle, hlt, hselects, ht⟩
    exact ⟨t.date, ⟨⟨hle, hlt⟩, hselects⟩, ht⟩

theorem candidates_ascend_of_spanPeriod? {r : Rule} {start : DateTime} {k : Nat} {p : Period}
    (h : r.spanPeriod? start k = some p) : p.candidates.Pairwise (· < ·) := by
  obtain ⟨first, days, -, -, hcandidates, -⟩ := spanPeriod?_cases h
  rw [hcandidates, List.pairwise_flatMap]
  constructor
  · intro date _
    exact r.datetimesOn_ascend start.time date
  · -- The datetimes of different dates are in the order of the dates.
    apply ((Date.run_ascends first.number days).filter _).imp
    intro d e hlt a ha b hb
    obtain rfl := (mem_datetimesOn_iff.mp ha).1
    obtain rfl := (mem_datetimesOn_iff.mp hb).1
    exact .inl hlt

/-- What a later span offers comes later. -/
theorem lt_of_mem_spanPeriod? {r : Rule} {start : DateTime} {k j : Nat} {p q : Period}
    (hkj : k < j) (hp : r.spanPeriod? start k = some p) (hq : r.spanPeriod? start j = some q)
    {a b : DateTime} (ha : a ∈ p.candidates) (hb : b ∈ q.candidates) : a < b := by
  obtain ⟨first, days, hspan, -⟩ := spanPeriod?_cases hp
  obtain ⟨first', days', hspan', -⟩ := spanPeriod?_cases hq
  obtain ⟨-, ha, -⟩ := (mem_candidates_of_spanPeriod? hp hspan).mp ha
  obtain ⟨hb, -⟩ := (mem_candidates_of_spanPeriod? hq hspan').mp hb
  have horder := end_le_begin_of_span? hspan hspan' hkj
  exact .inl (by omega)

/-- No candidate of a span lies before the span. -/
theorem floor_le_of_mem_spanPeriod? {r : Rule} {start t : DateTime} {k : Nat} {p : Period}
    (h : r.spanPeriod? start k = some p) (ht : t ∈ p.candidates) : p.floor ≤ t := by
  obtain ⟨first, days, hspan, hfloor, -⟩ := spanPeriod?_cases h
  obtain ⟨hle, -⟩ := (mem_candidates_of_spanPeriod? h hspan).mp ht
  rw [hfloor]
  exact DateTime.midnightOf_le hle

/-- A later span begins on a later day. -/
theorem floor_lt_floor_of_spanPeriod? {r : Rule} {start : DateTime} {k j : Nat}
    {p q : Period} (hkj : k < j) (hp : r.spanPeriod? start k = some p)
    (hq : r.spanPeriod? start j = some q) : p.floor < q.floor := by
  obtain ⟨first, days, hspan, hfloor, -⟩ := spanPeriod?_cases hp
  obtain ⟨first', days', hspan', hfloor', -⟩ := spanPeriod?_cases hq
  obtain ⟨hbegin, hend⟩ := begin_end_of_span? hspan
  have hlength := r.spanBegin_lt_succ start.date (k * r.interval)
  have horder := end_le_begin_of_span? hspan hspan' hkj
  rw [hfloor, hfloor']
  exact .inl (show first.number < first'.number by omega)

/-- Outside the calendar there are no spans any more. -/
theorem spanPeriod?_eq_none_of_le {r : Rule} {start : DateTime} {k j : Nat}
    (hk : r.spanPeriod? start k = none) (hkj : k ≤ j) : r.spanPeriod? start j = none := by
  rw [spanPeriod?, Option.map_eq_none_iff] at hk ⊢
  by_contra hsome
  have hinside := isSome_span?_of_le hkj (Option.isSome_iff_ne_none.mpr hsome)
  rw [hk] at hinside
  simp at hinside

/-- As many steps as lead to a distance come to it or go past it. -/
theorem le_stepsTo_mul (distance : Nat) {step : Nat} (hstep : 0 < step) :
    distance ≤ stepsTo distance step * step := by
  have hdivide := Nat.div_add_mod (distance + step - 1) step
  have hrest := Nat.mod_lt (distance + step - 1) hstep
  rw [stepsTo, Nat.mul_comm]
  omega

/-- The days that are passed over lie in a refused month, that of the day from which they are
passed over. -/
theorem refused_of_lt_advance {r : Rule} {first d : Date} {n : Nat} (hpos : 0 < n)
    (hlt : n < r.advance first) (hd : d.number = first.number + (n * r.interval : Nat)) :
    r.frequency = .daily ∧ r.admitsMonth first.month = false ∧
      d.yearMonth = first.yearMonth := by
  unfold advance at hlt
  split at hlt
  next hrefused =>
    simp only [Bool.and_eq_true, decide_eq_true_eq, Bool.not_eq_true'] at hrefused
    have hdistance := mul_lt_of_lt_stepsTo hlt
    have hnumber := first.number_eq
    have hday := first.day_le_length
    have hone := first.one_le_day
    refine ⟨hrefused.1, hrefused.2, ?_⟩
    apply Date.yearMonth_eq <;> omega
  next => omega

/-- From a day of a refused month a daily rule goes on to a later month. -/
theorem index_lt_of_advance {r : Rule} {first d : Date} (hdaily : r.frequency = .daily)
    (hrefused : r.admitsMonth first.month = false)
    (hd : d.number = first.number + (r.advance first * r.interval : Nat)) :
    first.yearMonth.index < d.yearMonth.index := by
  have hadvance : r.advance first =
      stepsTo (first.yearMonth.length - first.day + 1) r.interval := by
    simp [advance, hdaily, hrefused]
  have hdistance := le_stepsTo_mul (first.yearMonth.length - first.day + 1) r.interval_pos
  rw [hadvance] at hd
  have hnumber := first.number_eq
  have hday := first.day_le_length
  have hone := first.one_le_day
  have hmonth := d.number_lt_firstDay_add_length
  by_contra hle
  -- The day would not lie behind the last day of the month.
  have hmonths := YearMonth.firstDay_le_of_index_le (Int.not_lt.mp hle)
  rcases Int.lt_or_eq_of_le (Int.not_lt.mp hle) with hlt | heq
  · have hover := YearMonth.firstDay_add_length_le hlt
    omega
  · rw [YearMonth.index_injective heq] at hmonth
    omega

/-- What is passed over offers nothing. -/
theorem candidates_eq_nil_of_lt_spanPeriod?_following {r : Rule} {start : DateTime}
    {k j : Nat} {p q : Period} (hp : r.spanPeriod? start k = some p) (hkj : k < j)
    (hj : j < p.following) (hq : r.spanPeriod? start j = some q) : q.candidates = [] := by
  obtain ⟨first, days, hspan, -, -, hfollowing⟩ := spanPeriod?_cases hp
  obtain ⟨day, days', hspan', -⟩ := spanPeriod?_cases hq
  obtain ⟨hbegin, -⟩ := begin_end_of_span? hspan
  obtain ⟨hbegin', hend'⟩ := begin_end_of_span? hspan'
  have hdaily : r.frequency = .daily := by
    by_contra hne
    simp [advance, hne] at hfollowing
    omega
  simp only [spanBegin, hdaily] at hbegin hbegin' hend'
  have hday : day.number = first.number + ((j - k) * r.interval : Nat) := by
    have hle := Nat.mul_le_mul_right r.interval (Nat.le_of_lt hkj)
    rw [Nat.sub_mul]
    omega
  obtain ⟨-, hrefused, hmonth⟩ := refused_of_lt_advance (by omega) (by omega) hday
  -- A candidate would be on that day, in the month that the rule refuses.
  rw [List.eq_nil_iff_forall_not_mem]
  intro t ht
  obtain ⟨hle, hlt, hselects, -⟩ := (mem_candidates_of_spanPeriod? hq hspan').mp ht
  have hdate : t.date = day := Date.ext_number (by omega)
  have hadmits := admitsMonth_of_selects hselects
  rw [Date.month, hdate, hmonth, ← Date.month, hrefused] at hadmits
  simp at hadmits

end Rule
end Timetable
