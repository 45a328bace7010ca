import Timetable.Proofs.Machine.Periods

/-!
# Ticks with machine numbers

The gap to a boundary is counted in nanoseconds and divided by those of a step, rounded up;
`skipTo_eq` says that this is the number of steps that lead past the whole seconds.  From there
`evaluates_tickStep` goes through the ways in which a tick can be refused.
-/

namespace Timetable
namespace Machine

open Civil

variable {r : Rule} {start tick boundary : DateTime} {distance step k unit : Nat}

/-! ## Passing over ticks -/

theorem stepsTo_le (distance : Nat) (hstep : 0 < step) : Rule.stepsTo distance step ≤ distance := by
  by_contra hlt
  have hmul := Rule.mul_lt_of_lt_stepsTo (Nat.lt_of_not_le hlt)
  have hle := Nat.le_mul_of_pos_right distance hstep
  omega

theorem leadOn_eq_some (floor : DateTime) (candidates : List DateTime) {jump : Nat}
    (hfits : k + jump ≤ 9000000000000000000) :
    leadOn floor candidates k jump = some ⟨floor, candidates, (k + jump : Nat)⟩ := by
  rw [leadOn, ← Int.natCast_add, Word.fit?_of_holds (Word.holds_signed64_iff.mpr (by omega)),
    Option.map_some]

/-- Steps are counted in whole seconds or in nanoseconds alike, if less than a second is missing
from the whole ones. -/
theorem stepsTo_eq_of_nanos {gap : Nat} (hleast : distance * 1000000000 < gap + 1000000000)
    (hgreatest : gap ≤ distance * 1000000000) :
    (gap + step * 1000000000 - 1) / (step * 1000000000) = Rule.stepsTo distance step := by
  rw [Nat.mul_comm step, ← Nat.div_div_eq_div_mul, Rule.stepsTo]
  congr 1
  omega

/-- The nanoseconds to a boundary, divided by those of a step, give the steps that lead past the
whole seconds. -/
theorem skipTo_eq (hpos : 0 < distance) (hnear : distance ≤ 10000000) (hstep : 0 < step)
    (hsmall : step ≤ 15461882262000) (hk : k ≤ 1000000000000)
    (hseconds : boundary.wholeSeconds = tick.wholeSeconds + distance)
    (hnano : boundary.time.nanosecond ≤ tick.time.nanosecond) :
    skipTo tick boundary step k =
      pure (some ⟨tick, [], (k + Rule.stepsTo distance step : Nat)⟩) := by
  have hlt := tick.time.nanosecond_lt
  -- The fraction of the tick's second is missing from the gap.
  obtain ⟨gap, hgap, hleast, hgreatest⟩ : ∃ gap : Nat,
      boundary.instant - tick.instant = gap ∧ distance * 1000000000 < gap + 1000000000 ∧
        gap ≤ distance * 1000000000 := by
    have hboundary : boundary.instant =
        boundary.wholeSeconds * 1000000000 + boundary.time.nanosecond := rfl
    have htick : tick.instant = tick.wholeSeconds * 1000000000 + tick.time.nanosecond := rfl
    refine ⟨(boundary.instant - tick.instant).toNat, ?_, ?_, ?_⟩ <;> omega
  have hsum : (gap : Int) + step * 1000000000 - 1 = (gap + step * 1000000000 - 1 : Nat) := by
    omega
  have hnanos : (step : Int) * 1000000000 = (step * 1000000000 : Nat) := by omega
  have hsteps := Rule.stepsTo_pos hpos hstep
  have hfew := stepsTo_le distance hstep
  rw [skipTo, hgap, Word.fit_of_holds (Word.holds_signed128_iff.mpr (by omega)), pure_bind,
    Word.mul_of_holds (Word.holds_signed128_iff.mpr (by omega)), pure_bind,
    Word.add_of_holds (Word.holds_signed128_iff.mpr (by omega)), pure_bind,
    Word.sub_of_holds (Word.holds_signed128_iff.mpr (by omega)), pure_bind, hsum, hnanos,
    Word.quot_natCast (by omega) (by decide) (by
      show (_ : Int) ≤ 170141183460469231731687303715884105727
      omega), pure_bind, stepsTo_eq_of_nanos hleast hgreatest, max_eq_left (by omega),
    Word.fit?_of_holds (Word.holds_signed64_iff.mpr (by omega))]
  dsimp only
  rw [leadOn_eq_some tick [] (by omega)]

theorem le_of_addSeconds? {seconds : Nat} (h : start.addSeconds? seconds = some tick) :
    seconds ≤ 253402300800 := by
  obtain ⟨hlt, -⟩ := DateTime.addSeconds?_eq_some_iff.mp h
  have hgreatest : DateTime.greatestDays = 2932896 := rfl
  omega

theorem index_le_of_addSeconds? (hstep : 0 < step)
    (h : start.addSeconds? (k * step) = some tick) : k ≤ 1000000000000 := by
  have hle := le_of_addSeconds? h
  have hmul := Nat.le_mul_of_pos_right k hstep
  omega

/-- A refused tick leads to the first one at or after a midnight, or it is the last. -/
theorem evaluates_skipToDate (distance : Nat) {date? : Option Date} {n : Int}
    (hdate : date? = Date.ofNumber? n) (htick : start.addSeconds? (k * step) = some tick)
    (hperiod : r.tickPeriod? start step k = some ⟨tick, [], k + Rule.stepsTo distance step⟩)
    (hseconds : n * 86400 = tick.wholeSeconds + distance) (hpos : 0 < distance)
    (hnear : distance ≤ 10000000) (hstep : 0 < step) (hsmall : step ≤ 15461882262000) :
    Evaluates (r.tickPeriod? start step) k (skipToDate tick date? step k) := by
  have hk := index_le_of_addSeconds? hstep htick
  unfold skipToDate
  cases hnext : date? with
  | some date =>
      rw [hdate, Date.ofNumber?_eq_some_iff] at hnext
      have hmidnight : (DateTime.midnightOf date).wholeSeconds = date.number * 86400 :=
        Int.add_zero _
      dsimp only
      rw [skipTo_eq hpos hnear hstep hsmall hk (by omega) (Nat.zero_le _)]
      exact .period hperiod fun t => Iff.rfl
  | none =>
      refine .lastEmpty hperiod rfl ?_
      -- The next tick that counts would lie past the last day.
      have hpast : 3652424 < n := by
        by_contra hle
        have hfirst := tick.date.first_le
        have htick : tick.wholeSeconds = tick.date.number * 86400 + tick.time.secondOfDay := rfl
        rw [hdate, Date.ofNumber?, dif_pos ⟨by omega, by omega⟩] at hnext
        contradiction
      cases hlater : start.addSeconds? ((k + Rule.stepsTo distance step) * step) with
      | none => rw [Rule.tickPeriod?, hlater, Option.map_none]
      | some later =>
          exfalso
          have hsteps := Rule.le_stepsTo_mul distance hstep
          have hfrom := DateTime.wholeSeconds_addSeconds? htick
          have hto := DateTime.wholeSeconds_addSeconds? hlater
          rw [Nat.add_mul] at hto
          have hlast := later.date.le_last
          have hsecond := later.time.secondOfDay_lt
          rw [DateTime.wholeSeconds] at hto
          omega

/-! ## Evaluating a tick -/

/-- A rule whose frequency leaves no choice to the start selects by its lists alone. -/
theorem selects_eq_of_isStartDay {first d : Date} (hyearDays : r.yearDays = [])
    (hstart : r.isStartDay first d = true) :
    r.selects first d = (r.admitsMonth d.month && (r.admitsMonthDay d && r.admitsWeekday d)) := by
  have hyearDay : r.admitsYearDay d = true := by
    rw [Rule.admitsYearDay, hyearDays, List.isEmpty_nil, Bool.true_or]
  rw [Bool.eq_iff_iff, Rule.selects_iff_admits, Bool.and_eq_true, Bool.and_eq_true]
  simp only [hyearDay, hstart, true_and, imp_true_iff, and_true]

/-- A rule that is finer than a day selects by its lists alone, and its weekdays have no
ordinals. -/
theorem selects_of_unitSeconds? (hvalid : r.Valid)
    (hunit : r.frequency.unitSeconds? = some unit) :
    (∀ s ∈ r.weekdays, s.ordinal = none) ∧ ∀ first d : Date, r.selects first d =
      (r.admitsMonth d.month && (r.admitsMonthDay d && r.admitsWeekday d)) := by
  obtain ⟨hyearDays, hplain, hstart⟩ : r.yearDays = [] ∧ (∀ s ∈ r.weekdays, s.ordinal = none) ∧
      ∀ first d, r.isStartDay first d = true := by
    rcases Frequency.unitSeconds?_eq_some_iff.mp hunit with ⟨h, -⟩ | ⟨h, -⟩ | ⟨h, -⟩ <;>
      exact ⟨hvalid.yearDays_eq_nil (by simp [h]), hvalid.ordinal_eq_none (by rw [h]; rfl),
        fun first d => by simp [Rule.isStartDay, h]⟩
  exact ⟨hplain, fun first d => selects_eq_of_isStartDay hyearDays (hstart first d)⟩

/-- The first day of the next month. -/
theorem firstOfMonth?_one (d : Date) :
    firstOfMonth? d 1 = Date.ofNumber? (d.yearMonth.firstDay + d.yearMonth.length) := by
  have hnext : (d.yearMonth.shift 1).index = d.yearMonth.index + 1 := YearMonth.index_shift _ _
  rw [firstOfMonth?, YearMonth.later?, if_pos (by decide), Option.bind_some,
    YearMonth.firstDay_add_length hnext, Date.ofDay?,
    if_pos ⟨Nat.le_refl 1, YearMonth.one_le_length _⟩]
  rw [Nat.sub_self, Int.natCast_zero, Int.add_zero]
  rfl

/-- A tick expands into the times of its lists. -/
theorem gathers_expandTick (hranges : r.WithinRanges)
    (hunit : r.frequency.unitSeconds? = some unit) (tick : DateTime) :
    Gathers (expandTick r tick) (· ∈ r.datetimesOn tick.time tick.date) := by
  have hmem (t : DateTime) : t ∈ r.expandTick tick ↔ t ∈ r.datetimesOn tick.time tick.date := by
    rw [← Rule.ascending_expandTick hunit, DateTime.mem_ascending]
  have hminutes : ∀ v ∈ r.minutes, v ≤ 127 := fun v hv => (hranges.minutes v hv).trans (by decide)
  have hseconds : ∀ v ∈ r.seconds, v ≤ 127 := fun v hv => (hranges.seconds v hv).trans (by decide)
  have hhourLt := tick.time.hour_lt
  have hminuteLt := tick.time.minute_lt
  have hhour : ∀ v ∈ [tick.time.hour], v ≤ 127 :=
    List.forall_mem_singleton.mpr (by omega)
  have hminute : ∀ v ∈ [tick.time.minute], v ≤ 127 :=
    List.forall_mem_singleton.mpr (by omega)
  have hcastHour : Word.unsigned8.cast tick.time.hour = pure (tick.time.hour : Int) :=
    Word.cast_of_holds (Word.holds_unsigned8_iff.mpr (by omega))
  have hcastMinute : Word.unsigned8.cast tick.time.minute = pure (tick.time.minute : Int) :=
    Word.cast_of_holds (Word.holds_unsigned8_iff.mpr (by omega))
  -- The rule's own expansion of the tick says it component by component.
  refine Gathers.congr (P := fun t => t ∈ r.expandTick tick) ?_ hmem
  simp only [Rule.mem_expandTick_iff]
  unfold expandTick
  rcases Frequency.unitSeconds?_eq_some_iff.mp hunit with
    ⟨hfrequency, -⟩ | ⟨hfrequency, -⟩ | ⟨hfrequency, -⟩
  · simp only [hfrequency, if_true, reduceCtorEq, if_false, List.mem_singleton]
    refine gathers_pure fun t => ?_
    rw [List.mem_singleton]
    constructor
    · rintro rfl
      exact ⟨rfl, rfl, rfl, rfl, rfl⟩
    · rintro ⟨hdate, hhour, hminute, hsecond, hnano⟩
      refine DateTime.ext_wholeSeconds ?_ hnano
      rw [DateTime.wholeSeconds, DateTime.wholeSeconds, hdate,
        Time.secondOfDay_eq_iff.mpr ⟨hhour, hminute, hsecond⟩]
  · simp only [hfrequency]
    rw [hcastHour, pure_bind, hcastMinute, pure_bind, Int.toNat_natCast, Int.toNat_natCast]
    refine (gathers_expandTimes [tick.date] hhour hminute hseconds tick.time).congr fun t => ?_
    simp [Rule.listedOr]
  · simp only [hfrequency]
    rw [hcastHour, pure_bind, Int.toNat_natCast]
    refine (gathers_expandTimes [tick.date] hhour hminutes hseconds tick.time).congr fun t => ?_
    simp [Rule.listedOr]

/-- Remainders find the times that steps lead to. -/
theorem inReach_eq {now t : Nat} (hnow : now < 86400) (ht : t < 86400) (hstep : 0 < step) :
    inReach now step t = pure (decide (now ≤ t) && decide ((t - now) % step = 0)) := by
  unfold inReach
  split
  next hle =>
    have hle := Int.ofNat_le.mp hle
    rw [Word.sub_of_holds (Word.holds_signed64_iff.mpr (by omega)), pure_bind,
      ← Int.ofNat_sub hle, Word.rem_natCast hstep (by decide) (by
        show (_ : Int) ≤ 9223372036854775807
        omega), pure_bind, decide_eq_true hle, Bool.true_and]
    congr 1
    rw [Bool.eq_iff_iff, beq_iff_eq, decide_eq_true_eq, Int.natCast_eq_zero]
  next hlt => simp [Int.ofNat_le.not.mp hlt]

/-- On a day that counts, a tick stands for its times, or it leads to the next time that counts, or
to the next day. -/
theorem tickPeriod?_of_selects (htick : start.addSeconds? (k * step) = some tick)
    (hselects : r.selects start.date tick.date = true) :
    r.tickPeriod? start step k = some
      ((r.nextTickTime? start.time tick.time.secondOfDay step).elim
        ⟨tick, [], k + Rule.stepsTo (86400 - tick.time.secondOfDay) step⟩ fun t =>
          if tick.time.secondOfDay < t then
            ⟨tick, [], k + Rule.stepsTo (t - tick.time.secondOfDay) step⟩
          else
            ⟨tick, r.datetimesOn tick.time tick.date, k + 1⟩) := by
  have hmonth := Rule.admitsMonth_of_selects hselects
  cases hnext : r.nextTickTime? start.time tick.time.secondOfDay step with
  | none =>
      simp only [Rule.tickPeriod?, htick, Option.map_some, hmonth, hselects, hnext,
        Option.elim_none, Bool.not_true, Bool.false_eq_true, if_false]
  | some t =>
      simp only [Rule.tickPeriod?, htick, Option.map_some, hmonth, hselects, hnext,
        Option.elim_some, Bool.not_true, Bool.false_eq_true, if_false]

/-- A tick on a day that counts is expanded or passed over as the next time that counts says. -/
theorem evaluates_tickTimeStep (hranges : r.WithinRanges)
    (hunit : r.frequency.unitSeconds? = some unit)
    (htick : start.addSeconds? (k * step) = some tick)
    (hselects : r.selects start.date tick.date = true) (hstep : 0 < step)
    (hsmall : step ≤ 15461882262000) :
    Evaluates (r.tickPeriod? start step) k (tickTimeStep r start tick step k) := by
  have hday := tick.time.secondOfDay_lt
  have hk := index_le_of_addSeconds? hstep htick
  have hproper := r.proper_tickTimes start.time
  have hperiod := tickPeriod?_of_selects htick hselects
  have hfirst : firstTime? (r.tickTimes start.time) (inReach tick.time.secondOfDay step) =
      pure ((r.nextTickTime? start.time tick.time.secondOfDay step).map Int.ofNat) := by
    rw [firstTime?_eq hproper fun t ht => inReach_eq hday ht hstep, Rule.nextTickTime?,
      hproper.firstFrom?_eq_find?]
  rw [tickTimeStep, clockSecond_time, pure_bind, hfirst, pure_bind]
  cases hnext : r.nextTickTime? start.time tick.time.secondOfDay step with
  | none =>
      rw [hnext, Option.elim_none] at hperiod
      refine evaluates_skipToDate _ rfl htick hperiod ?_ (by omega) (by omega) hstep hsmall
      rw [DateTime.wholeSeconds]
      omega
  | some t =>
      rw [hnext, Option.elim_some] at hperiod
      obtain ⟨hmem, hle, -⟩ := hproper.firstFrom?_eq_some hnext
      have ht := hproper.lt_of_mem_times hmem
      dsimp only [Option.map_some, Int.ofNat_eq_natCast]
      split
      next hlater =>
        have hlater := Int.ofNat_lt.mp hlater
        rw [if_pos hlater] at hperiod
        -- The next time is on the same day, which the calendar has.
        obtain ⟨boundary, hboundary⟩ : ∃ boundary,
            tick.addSeconds? (t - tick.time.secondOfDay) = some boundary := by
          refine ⟨⟨tick.date, ⟨t, tick.time.nanosecond, ht, tick.time.nanosecond_lt⟩⟩,
            DateTime.addSeconds?_eq_some_iff.mpr ⟨?_, ?_, ?_, rfl⟩⟩
          · show _ < 86400 * (2932896 + 1)
            omega
          · dsimp only
            omega
          · dsimp only
            omega
        obtain ⟨-, -, -, hnano⟩ := DateTime.addSeconds?_eq_some_iff.mp hboundary
        rw [Word.sub_of_holds (Word.holds_signed64_iff.mpr (by omega)), pure_bind,
          ← Int.ofNat_sub hle, Int.toNat_natCast, hboundary]
        dsimp only
        rw [skipTo_eq (by omega) (by omega) hstep hsmall hk
          (DateTime.wholeSeconds_addSeconds? hboundary) (Nat.le_of_eq hnano)]
        exact .period hperiod fun u => Iff.rfl
      next hnow =>
        rw [if_neg fun h => hnow (Int.ofNat_lt.mpr h)] at hperiod
        obtain ⟨candidates, hcandidates, hmem⟩ := gathers_expandTick hranges hunit tick
        rw [hcandidates, pure_bind, ← Int.natCast_one, leadOn_eq_some tick candidates (by omega)]
        exact .period hperiod hmem

theorem evaluates_tickStep (hvalid : r.Valid) (hranges : r.WithinRanges)
    (hunit : r.frequency.unitSeconds? = some unit) (start : DateTime) (k : Nat) :
    Evaluates (r.tickPeriod? start (unit * r.interval)) k (tickStep r start k) := by
  have hsmall := step_le hranges hunit
  have hstep := Nat.mul_pos (Rule.unitSeconds_pos hunit) r.interval_pos
  obtain ⟨hplain, hselects⟩ := selects_of_unitSeconds? hvalid hunit
  rw [tickStep, tickSeconds?_eq_some hranges hunit]
  -- From here on only the bounds of the distance between ticks matter.
  generalize unit * r.interval = step at hsmall hstep
  dsimp only
  rw [← Int.natCast_mul]
  apply evaluates_of_fit? (w := .signed64) (n := (k * step : Nat))
  · cases Word.signed64.fit? (k * step : Nat) <;> rfl
  · intro p hp
    obtain ⟨tick, htick, -⟩ := Rule.tickPeriod?_cases hp
    have hle := le_of_addSeconds? htick
    exact Word.holds_signed64_iff.mpr (by omega)
  rw [Int.toNat_natCast]
  cases htick : start.addSeconds? (k * step) with
  | none =>
      refine .outside ?_
      rw [Rule.tickPeriod?, htick, Option.map_none]
  | some tick =>
      dsimp only
      have hday := tick.time.secondOfDay_lt
      have hlength := tick.date.yearMonth.length_le
      have hdayOfMonth := tick.date.day_le_length
      have hfirst := tick.date.one_le_day
      have hnumber := tick.date.number_eq
      have hselects := hselects start.date tick.date
      rw [matchesMonth_rule, pure_bind]
      cases hmonth : r.admitsMonth tick.date.month with
      | false =>
          rw [Bool.not_false, if_pos rfl]
          refine evaluates_skipToDate (86400 * (tick.date.yearMonth.length - tick.date.day) +
            (86400 - tick.time.secondOfDay)) (firstOfMonth?_one tick.date) htick ?_ ?_
            (by omega) (by omega) hstep hsmall
          · simp only [Rule.tickPeriod?, htick, Option.map_some, hmonth, Bool.not_false, if_true]
          · rw [DateTime.wholeSeconds]
            omega
      | true =>
          rw [hmonth, Bool.true_and] at hselects
          rw [Bool.not_true, if_neg Bool.false_ne_true, matchesMonthDay_eq hranges, pure_bind,
            matchesWeekday_eq hplain, ← Bool.not_and, ← hselects]
          cases hselect : r.selects start.date tick.date with
          | true =>
              rw [Bool.not_true, if_neg Bool.false_ne_true]
              exact evaluates_tickTimeStep hranges hunit htick hselect hstep hsmall
          | false =>
              rw [Bool.not_false, if_pos rfl]
              refine evaluates_skipToDate (86400 - tick.time.secondOfDay) rfl htick ?_ ?_
                (by omega) (by omega) hstep hsmall
              · simp only [Rule.tickPeriod?, htick, Option.map_some, hmonth, hselect,
                  Bool.not_true, Bool.not_false, Bool.false_eq_true, if_false, if_true]
              · rw [DateTime.wholeSeconds]
                omega

end Machine
end Timetable
