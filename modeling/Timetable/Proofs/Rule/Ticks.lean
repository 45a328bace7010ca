import Timetable.Proofs.Civil.Calendar
import Timetable.Proofs.Rule.Clock
import Timetable.Rule.Occurrences

/-!
# Ticks

A rule that is finer than a day counts a tick when the tick's date is one of the rule's
days and its second of the day one of the rule's tick times: `Rule.keepsTick`.  What a tick
offers depends on this alone, and when the evaluation of a refused tick passes over later
ticks, it passes over refused ones only: `tickPeriod?_cases`.

The ticks of a rule run through hours, minutes or seconds without meeting one twice, and
what a tick expands into stays in the tick's own hour, minute or second.
-/

namespace Timetable

open Civil

namespace Rule

/-- Whether a tick counts. -/
def keepsTick (r : Rule) (start tick : DateTime) : Bool :=
  r.selects start.date tick.date &&
    (r.tickTimes start.time).times.contains tick.time.secondOfDay

theorem keepsTick_iff {r : Rule} {start tick : DateTime} :
    r.keepsTick start tick = true ↔
      r.selects start.date tick.date = true ∧
        tick.time.secondOfDay ∈ (r.tickTimes start.time).times := by
  simp [keepsTick]

section Later

variable {start tick later : DateTime} {step k j : Nat}

private theorem wholeSeconds_later (hkj : k ≤ j)
    (htick : start.addSeconds? (k * step) = some tick)
    (hlater : start.addSeconds? (j * step) = some later) :
    later.wholeSeconds = tick.wholeSeconds + ((j - k) * step : Nat) := by
  have hk := DateTime.wholeSeconds_addSeconds? htick
  have hj := DateTime.wholeSeconds_addSeconds? hlater
  have hle := Nat.mul_le_mul_right step hkj
  rw [Nat.sub_mul]
  omega

/-- Ticks that come before the next midnight are on the same date. -/
private theorem date_later (hkj : k ≤ j)
    (htick : start.addSeconds? (k * step) = some tick)
    (hlater : start.addSeconds? (j * step) = some later)
    (hdistance : (j - k) * step < 86400 - tick.time.secondOfDay) :
    later.date = tick.date ∧
      later.time.secondOfDay = tick.time.secondOfDay + (j - k) * step := by
  have hseconds := wholeSeconds_later hkj htick hlater
  have hlt := later.time.secondOfDay_lt
  have hlt' := tick.time.secondOfDay_lt
  simp only [DateTime.wholeSeconds] at hseconds
  exact ⟨Date.ext_number (by omega), by omega⟩

/-- Ticks that come before the next month are in the same month. -/
private theorem month_later (hkj : k ≤ j)
    (htick : start.addSeconds? (k * step) = some tick)
    (hlater : start.addSeconds? (j * step) = some later)
    (hdistance : (j - k) * step < 86400 * (tick.date.yearMonth.length - tick.date.day) +
      (86400 - tick.time.secondOfDay)) :
    later.date.month = tick.date.month := by
  have hseconds := wholeSeconds_later hkj htick hlater
  have hlt := later.time.secondOfDay_lt
  have hlt' := tick.time.secondOfDay_lt
  have hday := tick.date.day_le_length
  have hpos := tick.date.one_le_day
  have hnumber := tick.date.number_eq
  simp only [DateTime.wholeSeconds] at hseconds
  have hmonth : later.date.yearMonth = tick.date.yearMonth := by
    apply Date.yearMonth_eq <;> omega
  rw [Date.month, Date.month, hmonth]

/-- Whether no tick counts within a distance of tick number `k`, the tick itself included. -/
def RefusesWithin (r : Rule) (start : DateTime) (step k distance : Nat) : Prop :=
  ∀ j later, k ≤ j → (j - k) * step < distance → start.addSeconds? (j * step) = some later →
    r.keepsTick start later = false

variable {r : Rule}

private theorem keepsTick_eq_false_of_selects (h : r.selects start.date tick.date = false) :
    r.keepsTick start tick = false := by
  rw [keepsTick, h, Bool.false_and]

/-- In a month that does not count, no tick counts up to the month's end. -/
theorem refusesWithin_of_admitsMonth_eq_false
    (htick : start.addSeconds? (k * step) = some tick)
    (hmonth : r.admitsMonth tick.date.month = false) :
    r.RefusesWithin start step k (86400 * (tick.date.yearMonth.length - tick.date.day) +
      (86400 - tick.time.secondOfDay)) := by
  intro j later hkj hdistance hlater
  apply keepsTick_eq_false_of_selects
  rw [selects, month_later hkj htick hlater hdistance, hmonth, Bool.false_and]

/-- On a date that does not count, no tick counts up to the next midnight. -/
theorem refusesWithin_of_selects_eq_false
    (htick : start.addSeconds? (k * step) = some tick)
    (hselects : r.selects start.date tick.date = false) :
    r.RefusesWithin start step k (86400 - tick.time.secondOfDay) := by
  intro j later hkj hdistance hlater
  apply keepsTick_eq_false_of_selects
  rw [(date_later hkj htick hlater hdistance).1, hselects]

/-- Later ticks of the same date are in phase with the tick. -/
private theorem phase_later (hkj : k ≤ j)
    (htick : start.addSeconds? (k * step) = some tick)
    (hlater : start.addSeconds? (j * step) = some later)
    (hdistance : (j - k) * step < 86400 - tick.time.secondOfDay) :
    (later.time.secondOfDay - tick.time.secondOfDay) % step = 0 := by
  rw [(date_later hkj htick hlater hdistance).2, Nat.add_sub_cancel_left, Nat.mul_mod_left]

/-- If no time that counts is left on the tick's date, no tick counts up to the next midnight. -/
theorem refusesWithin_of_nextTickTime?_eq_none
    (htick : start.addSeconds? (k * step) = some tick)
    (hnone : r.nextTickTime? start.time tick.time.secondOfDay step = none) :
    r.RefusesWithin start step k (86400 - tick.time.secondOfDay) := by
  intro j later hkj hdistance hlater
  obtain ⟨-, hsecond⟩ := date_later hkj htick hlater hdistance
  have hphase := phase_later hkj htick hlater hdistance
  by_contra hkept
  obtain ⟨-, hmem⟩ := keepsTick_iff.mp (eq_true_of_ne_false hkept)
  have hnever := (r.proper_tickTimes start.time).firstFrom?_eq_none_iff.mp hnone _ hmem
    (hsecond ▸ Nat.le_add_right _ _)
  exact of_decide_eq_false hnever hphase

/-- No tick counts up to the next time that counts on the tick's date. -/
theorem refusesWithin_of_nextTickTime?_eq_some {t : Nat}
    (htick : start.addSeconds? (k * step) = some tick)
    (hsome : r.nextTickTime? start.time tick.time.secondOfDay step = some t) :
    r.RefusesWithin start step k (t - tick.time.secondOfDay) := by
  have hproper := r.proper_tickTimes start.time
  obtain ⟨hmem, -, -, hleast⟩ := hproper.firstFrom?_eq_some hsome
  have htime := hproper.lt_of_mem_times hmem
  intro j later hkj hdistance hlater
  obtain ⟨-, hsecond⟩ := date_later hkj htick hlater (by omega)
  have hphase := phase_later hkj htick hlater (by omega)
  by_contra hkept
  obtain ⟨-, hmem'⟩ := keepsTick_iff.mp (eq_true_of_ne_false hkept)
  have hearlier := hleast _ hmem' (by omega) (decide_eq_true hphase)
  omega

end Later

/-- What the evaluation of a tick can do: offer the expansion of a tick that counts and go
on to the next one, or offer nothing and go on over a distance in which no tick counts. -/
theorem tickPeriod?_cases {r : Rule} {start : DateTime} {step k : Nat} {p : Period}
    (h : r.tickPeriod? start step k = some p) :
    ∃ tick, start.addSeconds? (k * step) = some tick ∧ p.floor = tick ∧
      (r.keepsTick start tick = true ∧ p.candidates = r.datetimesOn tick.time tick.date ∧
          p.following = k + 1 ∨
        p.candidates = [] ∧ ∃ distance, 0 < distance ∧
          p.following = k + stepsTo distance step ∧ r.RefusesWithin start step k distance) := by
  simp only [tickPeriod?, Option.map_eq_some_iff] at h
  obtain ⟨tick, htick, rfl⟩ := h
  have hday := tick.time.secondOfDay_lt
  refine ⟨tick, htick, ?_⟩
  split
  next hmonth =>
    exact ⟨rfl, .inr ⟨rfl, _, by omega, rfl,
      refusesWithin_of_admitsMonth_eq_false htick (Bool.not_eq_true' _ ▸ hmonth)⟩⟩
  split
  next hselects =>
    exact ⟨rfl, .inr ⟨rfl, _, by omega, rfl,
      refusesWithin_of_selects_eq_false htick (Bool.not_eq_true' _ ▸ hselects)⟩⟩
  next hselects =>
  rw [Bool.not_eq_true', Bool.not_eq_false] at hselects
  split
  next hnone =>
    exact ⟨rfl, .inr ⟨rfl, _, by omega, rfl,
      refusesWithin_of_nextTickTime?_eq_none htick hnone⟩⟩
  next t hsome =>
  split
  next hlt =>
    exact ⟨rfl, .inr ⟨rfl, _, by omega, rfl,
      refusesWithin_of_nextTickTime?_eq_some htick hsome⟩⟩
  next hlt =>
    -- The next time that counts is the tick's own.
    obtain ⟨hmem, hle, -⟩ := (r.proper_tickTimes start.time).firstFrom?_eq_some hsome
    obtain rfl : t = tick.time.secondOfDay := by omega
    exact ⟨rfl, .inl ⟨keepsTick_iff.mpr ⟨hselects, hmem⟩, rfl, rfl⟩⟩

/-- A tick offers its expansion if it counts, and nothing otherwise. -/
theorem candidates_of_tickPeriod? {r : Rule} {start tick : DateTime} {step k : Nat}
    {p : Period} (h : r.tickPeriod? start step k = some p)
    (htick : start.addSeconds? (k * step) = some tick) :
    p.candidates =
      if r.keepsTick start tick then r.datetimesOn tick.time tick.date else [] := by
  obtain ⟨tick', htick', -, ⟨hkept, hcandidates, -⟩ | ⟨hnone, distance, hpos, -, hrefused⟩⟩ :=
    tickPeriod?_cases h
  · rw [htick, Option.some.injEq] at htick'
    subst htick'
    rw [hcandidates, hkept, if_pos rfl]
  · rw [hnone, hrefused k tick (Nat.le_refl k) (by simpa using hpos) htick]
    rfl

/-- The ticks that are passed over offer nothing. -/
theorem candidates_eq_nil_of_lt_tickPeriod?_following {r : Rule} {start : DateTime}
    {step k j : Nat} {p q : Period}
    (hp : r.tickPeriod? start step k = some p) (hkj : k < j) (hj : j < p.following)
    (hq : r.tickPeriod? start step j = some q) : q.candidates = [] := by
  obtain ⟨later, hlater, -⟩ := tickPeriod?_cases hq
  obtain ⟨tick, -, -, ⟨-, -, hnext⟩ | ⟨-, distance, -, hfollowing, hrefused⟩⟩ :=
    tickPeriod?_cases hp
  · omega
  · have hdistance := mul_lt_of_lt_stepsTo
      (show j - k < stepsTo distance step by omega)
    rw [candidates_of_tickPeriod? hq hlater,
      hrefused j later (Nat.le_of_lt hkj) hdistance hlater]
    rfl

/-- Outside the calendar there are no ticks any more. -/
theorem tickPeriod?_eq_none_of_le {r : Rule} {start : DateTime} {step k j : Nat}
    (hk : r.tickPeriod? start step k = none) (hkj : k ≤ j) :
    r.tickPeriod? start step j = none := by
  by_contra hsome
  obtain ⟨p, hp⟩ := Option.ne_none_iff_exists'.mp hsome
  obtain ⟨tick, htick, -⟩ := tickPeriod?_cases hp
  obtain ⟨hreach, hdate, -⟩ := DateTime.addSeconds?_eq_some_iff.mp htick
  have hle := Nat.mul_le_mul_right step hkj
  have hlast := tick.date.le_last
  have hfirst := start.date.first_le
  -- The earlier tick lies between the start and the later one.
  have hearlier : (start.addSeconds? (k * step)).isSome := by
    have hdays : (start.time.secondOfDay + k * step) / 86400 ≤ DateTime.greatestDays := by
      omega
    simp only [DateTime.addSeconds?, hdays, if_true, Option.isSome_map, Date.addDays?,
      Date.ofNumber?]
    rw [dif_pos (by omega)]
    rfl
  rw [tickPeriod?, Option.map_eq_none_iff] at hk
  simp [hk] at hearlier

/-- A later tick is a later datetime. -/
theorem floor_lt_floor_of_tickPeriod? {r : Rule} {start : DateTime} {step k j : Nat}
    {p q : Period} (hstep : 0 < step) (hkj : k < j) (hp : r.tickPeriod? start step k = some p)
    (hq : r.tickPeriod? start step j = some q) : p.floor < q.floor := by
  obtain ⟨tick, htick, hfloor, -⟩ := tickPeriod?_cases hp
  obtain ⟨later, hlater, hfloor', -⟩ := tickPeriod?_cases hq
  have hlt := Nat.mul_lt_mul_of_pos_right hkj hstep
  rw [hfloor, hfloor', DateTime.lt_iff_instant_lt, DateTime.instant_addSeconds? htick,
    DateTime.instant_addSeconds? hlater]
  omega

/-- What a tick expands into stays in the tick's hour, minute or second. -/
theorem wholeSeconds_div_of_mem_datetimesOn {r : Rule} {unit : Nat}
    (hunit : r.frequency.unitSeconds? = some unit) {tick t : DateTime}
    (ht : t ∈ r.datetimesOn tick.time tick.date) :
    t.wholeSeconds / unit = tick.wholeSeconds / unit := by
  obtain ⟨hdate, hsecond, -⟩ := mem_datetimesOn_iff.mp ht
  obtain ⟨hhour, hminute, hsec⟩ :=
    (r.proper_expansion tick.time).mem_times_iff_components.mp hsecond
  simp only [DateTime.wholeSeconds, hdate]
  unfold expansion at hhour hminute hsec
  rcases Frequency.unitSeconds?_eq_some_iff.mp hunit with
    ⟨hfrequency, rfl⟩ | ⟨hfrequency, rfl⟩ | ⟨hfrequency, rfl⟩
  all_goals
    simp only [hfrequency, List.mem_singleton, Time.hour, Time.minute, Time.second]
      at hhour hminute hsec
    omega

/-- Of two ticks the later one is in a later hour, minute or second. -/
theorem wholeSeconds_div_lt_of_ticks {start tick later : DateTime}
    {unit interval k j : Nat} (hunit : 0 < unit) (hinterval : 0 < interval) (hkj : k < j)
    (htick : start.addSeconds? (k * (unit * interval)) = some tick)
    (hlater : start.addSeconds? (j * (unit * interval)) = some later) :
    tick.wholeSeconds / unit < later.wholeSeconds / unit := by
  have hseconds := wholeSeconds_later (Nat.le_of_lt hkj) htick hlater
  have hsteps : (j - k) * (unit * interval) = unit * ((j - k) * interval) := by
    rw [Nat.mul_left_comm]
  have hpos : 0 < (j - k) * interval := Nat.mul_pos (by omega) hinterval
  rw [hseconds, hsteps, Int.natCast_mul, Int.add_mul_ediv_left _ _ (by omega)]
  omega

/-- What a later tick offers comes later. -/
theorem lt_of_mem_tickPeriod? {r : Rule} {start : DateTime} {unit k j : Nat} {p q : Period}
    (hunit : r.frequency.unitSeconds? = some unit) (hkj : k < j)
    (hp : r.tickPeriod? start (unit * r.interval) k = some p)
    (hq : r.tickPeriod? start (unit * r.interval) j = some q) {a b : DateTime}
    (ha : a ∈ p.candidates) (hb : b ∈ q.candidates) : a < b := by
  obtain ⟨tick, htick, -⟩ := tickPeriod?_cases hp
  obtain ⟨later, hlater, -⟩ := tickPeriod?_cases hq
  rw [candidates_of_tickPeriod? hp htick] at ha
  rw [candidates_of_tickPeriod? hq hlater] at hb
  split at ha
  next =>
    split at hb
    next =>
      have hpos := unitSeconds_pos hunit
      have hlt := wholeSeconds_div_lt_of_ticks hpos r.interval_pos hkj htick hlater
      rw [← wholeSeconds_div_of_mem_datetimesOn hunit ha,
        ← wholeSeconds_div_of_mem_datetimesOn hunit hb] at hlt
      apply DateTime.lt_of_wholeSeconds_lt
      by_contra hle
      have := Int.ediv_le_ediv (show (0 : Int) < unit by omega) (Int.not_lt.mp hle)
      omega
    next => simp at hb
  next => simp at ha

/-- Ticks reach only the times of day that are in phase with the start's. -/
theorem secondOfDay_mod_reach {start tick : DateTime} {step k : Nat}
    (htick : start.addSeconds? (k * step) = some tick) :
    tick.time.secondOfDay % Nat.gcd step 86400 =
      start.time.secondOfDay % Nat.gcd step 86400 := by
  obtain ⟨-, -, hsecond, -⟩ := DateTime.addSeconds?_eq_some_iff.mp htick
  have hstep : k * step % Nat.gcd step 86400 = 0 :=
    Nat.mod_eq_zero_of_dvd (Nat.dvd_mul_left_of_dvd (Nat.gcd_dvd_left step 86400) k)
  rw [hsecond, Nat.mod_mod_of_dvd _ (Nat.gcd_dvd_right step 86400), Nat.add_mod, hstep,
    Nat.add_zero, Nat.mod_mod]

/-- If no tick comes to a time of day that counts, no tick counts. -/
theorem keepsTick_eq_false_of_not_reachesTickTime {r : Rule} {start tick : DateTime}
    {step k : Nat} (h : r.reachesTickTime start.time step = false)
    (htick : start.addSeconds? (k * step) = some tick) : r.keepsTick start tick = false := by
  have hproper := r.proper_tickTimes start.time
  have hnone : (r.tickTimes start.time).firstFrom? 0
      (fun t => t % Nat.gcd step 86400 = start.time.secondOfDay % Nat.gcd step 86400) =
        none := by
    simpa [reachesTickTime] using h
  by_contra hkept
  have hmem := (keepsTick_iff.mp (eq_true_of_ne_false hkept)).2
  have hphase := hproper.firstFrom?_eq_none_iff.mp hnone _ hmem (Nat.zero_le _)
  simp [secondOfDay_mod_reach htick] at hphase

end Rule
end Timetable
