import Timetable.Proofs.Rule.Sequence
import Timetable.Proofs.Rule.Validity

/-!
# Tick by tick

A rule that is finer than a day can be followed without passing over anything: visit every
tick inside the calendar, refuse it or expand it by the lists as they are written, and put
what it gives in order.  `Rule.tickByTick` does that.

The rule's occurrences are what is found tick by tick, as long as a tick lies no more than
`DateTime.greatestDays` after the start.  `toList_occurrences_eq_tickByTick_iff` says when
nothing is lost behind that.  A start in 1970 or later loses nothing.
-/

namespace Timetable

open Civil

namespace Civil

namespace DateTime

/-- The datetime `n` seconds later, if the calendar has it. -/
def later? (t : DateTime) (n : Nat) : Option DateTime := do
  let total := t.time.secondOfDay + n
  let date ← t.date.addDays? (total / 86400 : Nat)
  let time ← t.time.withSecondOfDay? (total % 86400)
  return ⟨date, time⟩

/-- Whether a datetime can be moved `n` seconds at once: counted from the midnight before,
the distance does not exceed `greatestDays`. -/
def Reaches (t : DateTime) (n : Nat) : Prop :=
  (t.time.secondOfDay + n) / 86400 ≤ greatestDays

instance (t : DateTime) (n : Nat) : Decidable (t.Reaches n) :=
  inferInstanceAs (Decidable (_ ≤ _))

theorem addSeconds?_eq_later? (t : DateTime) (n : Nat) :
    t.addSeconds? n = if t.Reaches n then t.later? n else none := by
  simp only [addSeconds?, later?, Reaches, Time.withSecondOfDay?]
  rw [dif_pos (Nat.mod_lt _ (by decide))]
  cases t.date.addDays? ((t.time.secondOfDay + n) / 86400 : Nat) <;> rfl

theorem wholeSeconds_later? {t u : DateTime} {n : Nat} (h : t.later? n = some u) :
    u.wholeSeconds = t.wholeSeconds + n := by
  simp only [later?, Time.withSecondOfDay?, Option.bind_eq_bind, Option.bind_eq_some_iff,
    Option.pure_def, Option.some.injEq, Option.dite_none_right_eq_some,
    Date.addDays?_eq_some_iff] at h
  obtain ⟨date, hdate, time, ⟨_, rfl⟩, rfl⟩ := h
  simp only [wholeSeconds, hdate]
  omega

/-- From 1970 on everything inside the calendar can be reached. -/
theorem reaches_of_later? {t u : DateTime} {n : Nat} (hyear : 1970 ≤ t.date.year)
    (h : t.later? n = some u) : t.Reaches n := by
  have hfirst := daysBeforeYear_yearOfDay_le t.date.number
  have hseconds := wholeSeconds_later? h
  have hlt := u.time.secondOfDay_lt
  have hlast := u.date.le_last
  simp only [Date.year] at hyear
  simp only [daysBeforeYear] at hfirst
  simp only [wholeSeconds] at hseconds
  show (t.time.secondOfDay + n) / 86400 ≤ 2932896
  omega

end DateTime
end Civil

namespace Rule

variable {r : Rule} {start tick t : DateTime} {k unit : Nat}

/-! ## The plain evaluation -/

/-- Whether a list has a value, or has no values at all. -/
def permits (listed : List Nat) (v : Nat) : Bool :=
  listed.isEmpty || listed.contains v

/-- The listed values as they are written, or `own` if there are none. -/
def listedOr (listed : List Nat) (own : Nat) : List Nat :=
  if listed.isEmpty then [own] else listed

/-- Whether a tick counts: its date is in the lists of months, days of the month and
weekdays, and its components down to the unit of the frequency are in theirs. -/
def passesTick (r : Rule) (tick : DateTime) : Bool :=
  r.admitsMonth tick.date.month && r.admitsMonthDay tick.date && r.admitsWeekday tick.date &&
    permits r.hours tick.time.hour &&
    (r.frequency = .hourly || permits r.minutes tick.time.minute) &&
    (r.frequency ≠ .secondly || permits r.seconds tick.time.second)

/-- The datetimes into which a tick expands, in the order and with the repetitions of the
lists.  There is no second 60. -/
def expandTick (r : Rule) (tick : DateTime) : List DateTime :=
  let minutes :=
    if r.frequency = .hourly then listedOr r.minutes tick.time.minute
    else [tick.time.minute]
  let seconds :=
    if r.frequency = .secondly then [tick.time.second]
    else listedOr r.seconds tick.time.second
  minutes.flatMap fun minute => seconds.filterMap fun second =>
    (Time.ofClock? tick.time.hour minute second tick.time.nanosecond).map fun time =>
      ⟨tick.date, time⟩

/-- What a tick gives: its datetimes in order and without repetitions, of these the set
positions, and of these what is not before the start. -/
def visitTick (r : Rule) (start tick : DateTime) : List DateTime :=
  let datetimes := if r.passesTick tick then r.expandTick tick else []
  (Position.select r.setPositions (DateTime.ascending datetimes)).filter (start ≤ ·)

/-- What the ticks inside the calendar give, `step` seconds apart. -/
def tickByTick (r : Rule) (start : DateTime) (step : Nat) : List DateTime :=
  (List.range periodLimit).flatMap fun k =>
    ((start.later? (k * step)).map (r.visitTick start)).getD []

/-! ## One tick -/

/-- A rule that is finer than a day has no day of its own to fall back on. -/
private theorem selects_eq_of_unitSeconds? (hvalid : r.Valid)
    (hunit : r.frequency.unitSeconds? = some unit) (start d : Date) :
    r.selects start d = (r.admitsMonth d.month && r.admitsMonthDay d && r.admitsWeekday d) := by
  have hfrequency := Frequency.unitSeconds?_eq_some_iff.mp hunit
  have hyearDays : r.yearDays = [] := by
    apply hvalid.yearDays_eq_nil
    rcases hfrequency with ⟨h, -⟩ | ⟨h, -⟩ | ⟨h, -⟩ <;> simp [h]
  have hstart : r.isStartDay start d = true := by
    unfold isStartDay
    rcases hfrequency with ⟨h, -⟩ | ⟨h, -⟩ | ⟨h, -⟩ <;> simp [h]
  unfold selects
  by_cases hlists : r.listsDays = true
  · rw [if_pos hlists]
    simp [admitsYearDay, hyearDays, Bool.and_assoc]
  · rw [if_neg hlists, hstart]
    simp only [listsDays, hyearDays, List.isEmpty_nil, Bool.true_and, Bool.not_eq_true,
      Bool.not_eq_false', Bool.and_eq_true, List.isEmpty_iff] at hlists
    simp [admitsMonthDay, admitsWeekday, hlists.1, hlists.2]

/-- The components of a tick below the unit of the frequency are those of the start. -/
private theorem secondOfDay_mod_unit (hunit : r.frequency.unitSeconds? = some unit)
    (htick : start.later? (k * (unit * r.interval)) = some tick) :
    tick.time.secondOfDay % unit = start.time.secondOfDay % unit := by
  have hseconds := DateTime.wholeSeconds_later? htick
  rw [show k * (unit * r.interval) = unit * (k * r.interval) from Nat.mul_left_comm ..]
    at hseconds
  simp only [DateTime.wholeSeconds] at hseconds
  rcases Frequency.unitSeconds?_eq_some_iff.mp hunit with ⟨-, rfl⟩ | ⟨-, rfl⟩ | ⟨-, rfl⟩
  all_goals omega

theorem keepsTick_eq_passesTick (hvalid : r.Valid)
    (hunit : r.frequency.unitSeconds? = some unit)
    (htick : start.later? (k * (unit * r.interval)) = some tick) :
    r.keepsTick start tick = r.passesTick tick := by
  have hphase := secondOfDay_mod_unit hunit htick
  have hpermits (listed : List Nat) {bound v : Nat} (hv : v < bound) :
      v ∈ Clock.limit listed bound ↔ permits listed v = true := by
    simp [Clock.mem_limit_iff, permits, hv]
  have hhour := hpermits r.hours tick.time.hour_lt
  have hminute := hpermits r.minutes tick.time.minute_lt
  have hsecond := hpermits r.seconds tick.time.second_lt
  rw [Bool.eq_iff_iff, keepsTick_iff, selects_eq_of_unitSeconds? hvalid hunit,
    (r.proper_tickTimes start.time).mem_times_iff_components]
  simp only [Time.hour, Time.minute, Time.second] at hhour hminute hsecond
  -- The start's own components stand for the units below that of the frequency.
  rcases Frequency.unitSeconds?_eq_some_iff.mp hunit with
    ⟨hfrequency, rfl⟩ | ⟨hfrequency, rfl⟩ | ⟨hfrequency, rfl⟩
  · simp [tickTimes, passesTick, hfrequency, hhour, hminute, hsecond, Time.hour, Time.minute,
      Time.second, and_assoc]
  · have hsecond : tick.time.secondOfDay % 60 = start.time.second := by
      simp only [Time.second]
      omega
    simp [tickTimes, passesTick, hfrequency, hhour, hminute, hsecond, Time.hour, Time.minute,
      and_assoc]
  · have hminute : tick.time.secondOfDay / 60 % 60 = start.time.minute := by
      simp only [Time.minute]
      omega
    have hsecond : tick.time.secondOfDay % 60 = start.time.second := by
      simp only [Time.second]
      omega
    simp [tickTimes, passesTick, hfrequency, hhour, hminute, hsecond, Time.hour, and_assoc]

theorem mem_expandTick_iff :
    t ∈ r.expandTick tick ↔
      t.date = tick.date ∧ t.time.hour = tick.time.hour ∧
        t.time.minute ∈ (if r.frequency = .hourly then listedOr r.minutes tick.time.minute
          else [tick.time.minute]) ∧
        t.time.second ∈ (if r.frequency = .secondly then [tick.time.second]
          else listedOr r.seconds tick.time.second) ∧
        t.time.nanosecond = tick.time.nanosecond := by
  simp only [expandTick, List.mem_flatMap, List.mem_filterMap, Option.map_eq_some_iff,
    Time.ofClock?_eq_some_iff]
  constructor
  · rintro ⟨minute, hminute, second, hsecond, time, ⟨hhour, rfl, rfl, hnano⟩, rfl⟩
    exact ⟨rfl, hhour, hminute, hsecond, hnano⟩
  · rintro ⟨hdate, hhour, hminute, hsecond, hnano⟩
    exact ⟨_, hminute, _, hsecond, t.time, ⟨hhour, rfl, rfl, hnano⟩, by rw [← hdate]⟩

/-- A tick expands into the same datetimes whether the lists are put in order before or
after. -/
theorem ascending_expandTick (hunit : r.frequency.unitSeconds? = some unit)
    (tick : DateTime) :
    DateTime.ascending (r.expandTick tick) = r.datetimesOn tick.time tick.date := by
  apply (DateTime.ascending_pairwise_lt _).eq_of_mem_iff
    (r.datetimesOn_ascend tick.time tick.date)
  intro t
  rw [DateTime.mem_ascending, mem_expandTick_iff, mem_datetimesOn_iff,
    (r.proper_expansion tick.time).mem_times_iff_components]
  have hlistedOr (listed : List Nat) (own : Nat) {bound v : Nat} (hv : v < bound) :
      v ∈ listedOr listed own ↔ v ∈ Clock.expand listed bound own := by
    rw [Clock.mem_expand_iff, listedOr]
    cases listed <;> simp [hv]
  have hminutes := hlistedOr r.minutes tick.time.minute t.time.minute_lt
  have hseconds := hlistedOr r.seconds tick.time.second t.time.second_lt
  simp only [Time.minute, Time.second] at hminutes hseconds
  simp only [Time.hour, Time.minute, Time.second]
  rcases Frequency.unitSeconds?_eq_some_iff.mp hunit with
    ⟨hfrequency, -⟩ | ⟨hfrequency, -⟩ | ⟨hfrequency, -⟩
  · simp only [expansion, hfrequency, List.mem_singleton, if_true, if_false, reduceCtorEq,
      Time.hour, Time.minute, Time.second, and_assoc]
  · simp only [expansion, hfrequency, hseconds, List.mem_singleton, if_false, reduceCtorEq,
      Time.hour, Time.minute, Time.second, and_assoc]
  · simp only [expansion, hfrequency, hminutes, hseconds, List.mem_singleton, if_true,
      if_false, reduceCtorEq, Time.hour, Time.minute, Time.second, and_assoc]

/-- Passing over ticks changes nothing of what a single tick gives, if the tick is not too
far from the start. -/
theorem offer_eq_visitTick (hvalid : r.Valid) (hunit : r.frequency.unitSeconds? = some unit)
    (start : DateTime) (k : Nat) :
    r.offer start k =
      if start.Reaches (k * (unit * r.interval))
      then ((start.later? (k * (unit * r.interval))).map (r.visitTick start)).getD []
      else [] := by
  have hwhole : r.wholePeriod? start k = r.tickPeriod? start (unit * r.interval) k := by
    simp only [wholePeriod?, hunit]
  cases htick : start.addSeconds? (k * (unit * r.interval)) with
  | none =>
      -- A tick outside the calendar or out of reach gives no period.
      have hperiod : r.period? start k = none := by
        rw [period?_eq_none_iff, hwhole, tickPeriod?, htick, Option.map_none]
      rw [offer_eq_nil_of_period?_eq_none hperiod]
      rw [DateTime.addSeconds?_eq_later?] at htick
      split
      next hreach =>
        rw [if_pos hreach] at htick
        rw [htick]
        rfl
      next => rfl
  | some tick =>
      obtain ⟨whole, hsome⟩ : ∃ whole, r.tickPeriod? start (unit * r.interval) k = some whole :=
        Option.isSome_iff_exists.mp (by simp [tickPeriod?, htick])
      have hcandidates := candidates_of_tickPeriod? hsome htick
      rw [DateTime.addSeconds?_eq_later?] at htick
      split at htick
      next hreach =>
        rw [if_pos hreach, htick, offer, period?, hwhole, hsome]
        simp only [Option.map_some, Option.getD_some, visitTick]
        rw [hcandidates, keepsTick_eq_passesTick hvalid hunit htick,
          ← ascending_expandTick hunit]
        split
        next => rfl
        next => rw [DateTime.ascending_nil]
      next => simp at htick

/-! ## All ticks -/

theorem lt_periodLimit_of_later? {step : Nat} (hstep : 0 < step)
    (h : start.later? (k * step) = some tick) : k < periodLimit := by
  have hseconds := DateTime.wholeSeconds_later? h
  have hk : k ≤ k * step := Nat.le_mul_of_pos_right k hstep
  have hlt := tick.time.secondOfDay_lt
  have hfirst := start.date.first_le
  have hlast := tick.date.le_last
  simp only [DateTime.wholeSeconds] at hseconds
  show k < 1000000000000
  omega

/-- No tick inside the calendar is left out. -/
theorem mem_tickByTick_iff {step : Nat} (hstep : 0 < step) :
    t ∈ r.tickByTick start step ↔
      ∃ k tick, start.later? (k * step) = some tick ∧ t ∈ r.visitTick start tick := by
  simp only [tickByTick, List.mem_flatMap, List.mem_range]
  constructor
  · rintro ⟨k, -, ht⟩
    cases htick : start.later? (k * step) with
    | none => simp [htick] at ht
    | some tick =>
        rw [htick] at ht
        exact ⟨k, tick, htick, ht⟩
  · rintro ⟨k, tick, htick, ht⟩
    refine ⟨k, lt_periodLimit_of_later? hstep htick, ?_⟩
    rw [htick]
    exact ht

/-- What a tick gives says which tick it is. -/
theorem wholeSeconds_div_of_mem_visitTick (hunit : r.frequency.unitSeconds? = some unit)
    (htick : start.later? (k * (unit * r.interval)) = some tick)
    (ht : t ∈ r.visitTick start tick) :
    t.wholeSeconds / unit = start.wholeSeconds / unit + (k * r.interval : Nat) := by
  have hpos := unitSeconds_pos hunit
  have hmem : t ∈ r.datetimesOn tick.time tick.date := by
    rw [← ascending_expandTick hunit]
    have hsub := (Position.select_sublist _ _).subset (List.mem_of_mem_filter ht)
    split at hsub
    next => exact hsub
    next => simp at hsub
  rw [wholeSeconds_div_of_mem_datetimesOn hunit hmem, DateTime.wholeSeconds_later? htick,
    Nat.mul_left_comm k, Int.natCast_mul unit, Int.add_mul_ediv_left _ _ (by omega)]

/-- Following the ticks from one worth evaluating to the next finds what all of them give,
up to the last one that can be reached. -/
theorem toList_occurrences_of_unitSeconds? (hvalid : r.Valid) (hending : r.ending = none)
    (hunit : r.frequency.unitSeconds? = some unit) (start : DateTime) :
    (r.occurrences start).toList =
      (List.range periodLimit).flatMap fun k =>
        if start.Reaches (k * (unit * r.interval))
        then ((start.later? (k * (unit * r.interval))).map (r.visitTick start)).getD []
        else [] := by
  rw [toList_occurrences_of_ending_eq_none hending, offers]
  apply List.flatMap_congr
  intro k _
  exact offer_eq_visitTick hvalid hunit start k

/-- Whatever a rule gives at a tick that cannot be reached, no tick that can be reached
gives. -/
private theorem not_mem_toList_of_not_reaches (hvalid : r.Valid) (hending : r.ending = none)
    (hunit : r.frequency.unitSeconds? = some unit)
    (htick : start.later? (k * (unit * r.interval)) = some tick)
    (hfar : ¬ start.Reaches (k * (unit * r.interval)))
    (ht : t ∈ r.visitTick start tick) : t ∉ (r.occurrences start).toList := by
  rw [toList_occurrences_of_unitSeconds? hvalid hending hunit, List.mem_flatMap]
  rintro ⟨j, -, hj⟩
  split at hj
  next hnear =>
    cases htick' : start.later? (j * (unit * r.interval)) with
    | none => simp [htick'] at hj
    | some tick' =>
        rw [htick'] at hj
        -- Both ticks give `t`, so they are the same.
        have hk := wholeSeconds_div_of_mem_visitTick hunit htick ht
        have hj := wholeSeconds_div_of_mem_visitTick hunit htick' hj
        have hsame : k * r.interval = j * r.interval := by omega
        rw [Nat.eq_of_mul_eq_mul_right r.interval_pos hsame] at hfar
        exact hfar hnear
  next => simp at hj

/-- The occurrences of a rule that is finer than a day are what its ticks give, one after
the other, up to the last one that can be reached.  They are all that is found tick by tick
if and only if the ticks behind it give nothing, and so they are if the start lies in 1970
or later. -/
theorem toList_occurrences_eq_tickByTick_iff (hvalid : r.Valid) (hending : r.ending = none)
    (hunit : r.frequency.unitSeconds? = some unit) (start : DateTime) :
    (r.occurrences start).toList =
        (List.range periodLimit).flatMap (fun k =>
          if start.Reaches (k * (unit * r.interval))
          then ((start.later? (k * (unit * r.interval))).map (r.visitTick start)).getD []
          else []) ∧
      ((r.occurrences start).toList = r.tickByTick start (unit * r.interval) ↔
        ∀ k tick, start.later? (k * (unit * r.interval)) = some tick →
          ¬ start.Reaches (k * (unit * r.interval)) → r.visitTick start tick = []) ∧
      (1970 ≤ start.date.year →
        (r.occurrences start).toList = r.tickByTick start (unit * r.interval)) := by
  have hstep := Nat.mul_pos (unitSeconds_pos hunit) r.interval_pos
  have hticks := toList_occurrences_of_unitSeconds? hvalid hending hunit start
  -- The two sides differ at most in the ticks that cannot be reached.
  have hsuffices (hnothing : ∀ k tick, start.later? (k * (unit * r.interval)) = some tick →
      ¬ start.Reaches (k * (unit * r.interval)) → r.visitTick start tick = []) :
      (r.occurrences start).toList = r.tickByTick start (unit * r.interval) := by
    rw [hticks, tickByTick]
    apply List.flatMap_congr
    intro k _
    split
    next => rfl
    next hfar =>
      cases htick : start.later? (k * (unit * r.interval)) with
      | none => rfl
      | some tick => exact (hnothing k tick htick hfar).symm
  refine ⟨hticks, ⟨?_, hsuffices⟩, ?_⟩
  · -- What such a tick gives is found tick by tick, but is not an occurrence.
    intro heq k tick htick hfar
    rw [List.eq_nil_iff_forall_not_mem]
    intro t ht
    apply not_mem_toList_of_not_reaches hvalid hending hunit htick hfar ht
    rw [heq, mem_tickByTick_iff hstep]
    exact ⟨k, tick, htick, ht⟩
  · intro hyear
    apply hsuffices
    intro k tick htick hfar
    exact absurd (DateTime.reaches_of_later? hyear htick) hfar

/-- Of every fifth hour that is the ninth of its day the last of the minutes 0 and 30, with
the seconds 15. -/
def halfPastNine : Rule :=
  { frequency := .hourly, interval := 5, ending := none, weekStart := .monday, months := [],
    yearDays := [], monthDays := [], weekdays := [], hours := [9], minutes := [30, 0, 30],
    seconds := [60, 15], setPositions := [-1], interval_pos := by decide }

/-- A start on the morning of 31 January 2024. -/
def morningStart : DateTime :=
  (DateTime.ofReading? 2024 1 31 9 15 30 0).get (by decide)

theorem halfPastNine_tickByTick :
    halfPastNine.Valid ∧ halfPastNine.ending = none ∧
      halfPastNine.frequency.unitSeconds? = some 3600 ∧ 1970 ≤ morningStart.date.year ∧
      (List.range 3).map (fun n =>
          ((halfPastNine.occurrences morningStart).item n).map fun t =>
            (t.date.number, t.time.secondOfDay)) =
        [some (739281, 34215), some (739286, 34215), some (739291, 34215)] ∧
      (halfPastNine.occurrences morningStart).toList =
        halfPastNine.tickByTick morningStart (3600 * 5) := by
  have hvalid : halfPastNine.Valid := by decide
  have hyear : 1970 ≤ morningStart.date.year := by decide
  refine ⟨hvalid, rfl, rfl, hyear, by decide +kernel, ?_⟩
  exact (toList_occurrences_eq_tickByTick_iff hvalid rfl rfl morningStart).2.2 hyear

/-- An hour of every million days. -/
def everyMillionDays : Rule :=
  { frequency := .hourly, interval := 24000000, ending := none, weekStart := .monday,
    months := [], yearDays := [], monthDays := [], weekdays := [], hours := [],
    minutes := [], seconds := [], setPositions := [], interval_pos := by decide }

/-- The first datetime of the calendar. -/
def calendarStart : DateTime :=
  DateTime.midnightOf ⟨-3652059, by decide, by decide⟩

/-- From the beginning of the calendar on, the sequence ends with the third of eight ticks,
for the fourth lies three million days after the start. -/
theorem everyMillionDays_ends_early :
    everyMillionDays.Valid ∧
      (everyMillionDays.occurrences calendarStart).toList.map (·.date.number) =
        [-3652059, -2652059, -1652059] ∧
      (∃ t ∈ everyMillionDays.tickByTick calendarStart (3600 * 24000000),
        t.date.number = -652059) ∧
      (everyMillionDays.occurrences calendarStart).toList ≠
        everyMillionDays.tickByTick calendarStart (3600 * 24000000) := by
  have hthree : (everyMillionDays.occurrences calendarStart).toList.map (·.date.number) =
      [-3652059, -2652059, -1652059] := by decide +kernel
  have hfourth : DateTime.midnightOf ⟨-652059, by decide, by decide⟩ ∈
      everyMillionDays.tickByTick calendarStart (3600 * 24000000) := by
    rw [mem_tickByTick_iff (by decide)]
    exact ⟨3, DateTime.midnightOf ⟨-652059, by decide, by decide⟩, by decide +kernel,
      by decide +kernel⟩
  refine ⟨by decide, hthree, ⟨_, hfourth, rfl⟩, ?_⟩
  intro heq
  rw [← heq] at hfourth
  have hmem := List.mem_map_of_mem (f := fun t : DateTime => t.date.number) hfourth
  rw [hthree] at hmem
  exact absurd hmem (by decide)

end Rule
end Timetable
