import Timetable.Proofs.Rule.Sequence
import Timetable.Rule.Draft

/-!
# Deadlines

A rule with a deadline has ended once the floor of a period lies past it.  Days, weeks,
months and years offer nothing before their floor, and neither do the seconds of a secondly
rule.  There a deadline keeps exactly the occurrences that are not past it.

An hour or a minute that is expanded can begin before its tick, and its floor is the tick.
Of what the last hour or minute offers before the deadline, nothing is left if the tick lies
past the deadline: `toList_occurrences_withDeadline`.
-/

namespace Timetable

open Civil

namespace Rule

variable {r : Rule} {start t u : DateTime} {k : Nat} {p : Period}

/-- The rule with a deadline in place of its ending. -/
def withDeadline (r : Rule) (u : DateTime) : Rule :=
  { r with ending := some (.deadline u) }

/-- The tick of an hourly or minutely rule in whose hour or minute a datetime lies: its
finer components are the start's.  Every other rule has the datetime itself. -/
def tickOf (r : Rule) (start t : DateTime) : DateTime :=
  let tick (hour minute second : Nat) : DateTime :=
    ⟨t.date, (Time.ofClock? hour minute second start.time.nanosecond).getD t.time⟩
  match r.frequency with
  | .hourly => tick t.time.hour start.time.minute start.time.second
  | .minutely => tick t.time.hour t.time.minute start.time.second
  | _ => t

theorem tickOf_eq_self (hhourly : r.frequency ≠ .hourly) (hminutely : r.frequency ≠ .minutely)
    (start t : DateTime) : r.tickOf start t = t := by
  unfold tickOf
  split
  next h => exact absurd h hhourly
  next h => exact absurd h hminutely
  next => rfl

/-- The tick of an hourly rule is in the hour of the datetime. -/
private theorem tickOf_hourly (h : r.frequency = .hourly) (start t : DateTime) :
    (r.tickOf start t).date = t.date ∧
      (r.tickOf start t).time.secondOfDay =
        3600 * t.time.hour + start.time.secondOfDay % 3600 ∧
      (r.tickOf start t).time.nanosecond = start.time.nanosecond := by
  simp only [tickOf, h, Time.ofClock?]
  rw [dif_pos ⟨t.time.hour_lt, start.time.minute_lt, start.time.second_lt,
    start.time.nanosecond_lt⟩]
  refine ⟨trivial, ?_, rfl⟩
  simp only [Option.getD_some, Time.minute, Time.second]
  omega

/-- The tick of a minutely rule is in the minute of the datetime. -/
private theorem tickOf_minutely (h : r.frequency = .minutely) (start t : DateTime) :
    (r.tickOf start t).date = t.date ∧
      (r.tickOf start t).time.secondOfDay =
        60 * (t.time.secondOfDay / 60) + start.time.secondOfDay % 60 ∧
      (r.tickOf start t).time.nanosecond = start.time.nanosecond := by
  simp only [tickOf, h, Time.ofClock?]
  rw [dif_pos ⟨t.time.hour_lt, t.time.minute_lt, start.time.second_lt,
    start.time.nanosecond_lt⟩]
  refine ⟨trivial, ?_, rfl⟩
  simp only [Option.getD_some, Time.hour, Time.minute, Time.second]
  omega

theorem tickOf_le_tickOf (r : Rule) (start : DateTime) (h : t ≤ u) :
    r.tickOf start t ≤ r.tickOf start u := by
  have ht := t.time.secondOfDay_lt
  have hu := u.time.secondOfDay_lt
  have hle := DateTime.wholeSeconds_le_of_le h
  simp only [DateTime.wholeSeconds] at hle
  by_cases hhourly : r.frequency = .hourly
  · obtain ⟨hdate, hsecond, hnano⟩ := tickOf_hourly hhourly start t
    obtain ⟨hdate', hsecond', hnano'⟩ := tickOf_hourly hhourly start u
    rw [DateTime.le_iff_instant_le]
    simp only [DateTime.instant, hdate, hsecond, hnano, hdate', hsecond', hnano', Time.hour]
    omega
  by_cases hminutely : r.frequency = .minutely
  · obtain ⟨hdate, hsecond, hnano⟩ := tickOf_minutely hminutely start t
    obtain ⟨hdate', hsecond', hnano'⟩ := tickOf_minutely hminutely start u
    rw [DateTime.le_iff_instant_le]
    simp only [DateTime.instant, hdate, hsecond, hnano, hdate', hsecond', hnano']
    omega
  · rw [tickOf_eq_self hhourly hminutely, tickOf_eq_self hhourly hminutely]
    exact h

/-! ## Periods and their floors -/

theorem exists_period?_of_mem_periodsFrom (h : p ∈ r.periodsFrom start k) :
    ∃ j, k ≤ j ∧ r.period? start j = some p := by
  induction k using periodsFrom.induct r start with
  | case1 k hnone => simp [periodsFrom_of_eq_none hnone] at h
  | case2 k q hsome ih =>
      rw [periodsFrom_of_eq_some hsome, List.mem_cons] at h
      rcases h with rfl | h
      · exact ⟨k, Nat.le_refl k, hsome⟩
      · obtain ⟨j, hj, hp⟩ := ih h
        have hlt := lt_following_of_period? hsome
        exact ⟨j, by omega, hp⟩

/-- The floors of the periods that are evaluated ascend. -/
theorem floors_ascend (r : Rule) (start : DateTime) (k : Nat) :
    (r.periodsFrom start k).Pairwise (·.floor < ·.floor) := by
  induction k using periodsFrom.induct r start with
  | case1 k hnone =>
      rw [periodsFrom_of_eq_none hnone]
      exact List.Pairwise.nil
  | case2 k p hsome ih =>
      rw [periodsFrom_of_eq_some hsome, List.pairwise_cons]
      refine ⟨?_, ih⟩
      intro q hq
      obtain ⟨j, hj, hperiod⟩ := exists_period?_of_mem_periodsFrom hq
      have hlt := lt_following_of_period? hsome
      exact floor_lt_floor_of_period? (by omega) hsome hperiod

/-- A deadline does not change the periods. -/
theorem periodsFrom_withDeadline (r : Rule) (u start : DateTime) (k : Nat) :
    (r.withDeadline u).periodsFrom start k = r.periodsFrom start k := by
  induction k using periodsFrom.induct r start with
  | case1 k hnone =>
      rw [periodsFrom_of_eq_none hnone]
      exact periodsFrom_of_eq_none (r := r.withDeadline u) hnone
  | case2 k p hsome ih =>
      rw [periodsFrom_of_eq_some hsome, ← ih]
      exact periodsFrom_of_eq_some (r := r.withDeadline u) hsome

/-- The tick is found again from whatever it expands into. -/
theorem tickOf_of_mem_datetimesOn {unit : Nat} {tick : DateTime}
    (hunit : r.frequency.unitSeconds? = some unit)
    (htick : start.addSeconds? (k * (unit * r.interval)) = some tick)
    (ht : t ∈ r.datetimesOn tick.time tick.date) : r.tickOf start t = tick := by
  have hseconds := DateTime.wholeSeconds_addSeconds? htick
  have hnano := (DateTime.addSeconds?_eq_some_iff.mp htick).2.2.2
  have hsame := wholeSeconds_div_of_mem_datetimesOn hunit ht
  have htnano := (mem_datetimesOn_iff.mp ht).2.2
  rw [show k * (unit * r.interval) = unit * (k * r.interval) from Nat.mul_left_comm ..]
    at hseconds
  simp only [DateTime.wholeSeconds] at hseconds hsame
  rcases Frequency.unitSeconds?_eq_some_iff.mp hunit with
    ⟨hfrequency, rfl⟩ | ⟨hfrequency, rfl⟩ | ⟨hfrequency, rfl⟩
  · -- A second is its own tick.
    rw [tickOf_eq_self (by simp [hfrequency]) (by simp [hfrequency])]
    apply DateTime.ext_wholeSeconds
    · simp only [DateTime.wholeSeconds]
      omega
    · exact htnano
  · obtain ⟨hdate, hsecond, hnano'⟩ := tickOf_minutely hfrequency start t
    apply DateTime.ext_wholeSeconds
    · simp only [DateTime.wholeSeconds, hdate, hsecond]
      omega
    · rw [hnano', hnano]
  · obtain ⟨hdate, hsecond, hnano'⟩ := tickOf_hourly hfrequency start t
    apply DateTime.ext_wholeSeconds
    · simp only [DateTime.wholeSeconds, hdate, hsecond, Time.hour]
      omega
    · rw [hnano', hnano]

/-- What a period offers before the deadline is kept just if its tick is not past the
deadline either. -/
theorem floor_le_iff_tickOf_le (h : r.period? start k = some p) (ht : t ∈ p.candidates)
    (hu : t ≤ u) : p.floor ≤ u ↔ r.tickOf start t ≤ u := by
  obtain ⟨whole, hwhole, hfloor, -, hcandidates⟩ := period?_cases h
  rw [hcandidates] at ht
  have hmem := (candidates_sublist r start whole).subset ht
  rw [hfloor]
  unfold wholePeriod? at hwhole
  split at hwhole
  next unit hunit =>
    obtain ⟨tick, htick, htickFloor, -⟩ := tickPeriod?_cases hwhole
    rw [candidates_of_tickPeriod? hwhole htick] at hmem
    split at hmem
    next => rw [htickFloor, tickOf_of_mem_datetimesOn hunit htick hmem]
    next => simp at hmem
  next hunit =>
    obtain ⟨-, hminutely, hhourly⟩ := Frequency.unitSeconds?_eq_none_iff.mp hunit
    rw [tickOf_eq_self hhourly hminutely]
    have hle := floor_le_of_mem_spanPeriod? hwhole hmem
    exact ⟨fun _ => hu, fun _ => le_trans hle hu⟩

/-! ## The sequence up to a deadline -/

/-- Of a rule's occurrences those are left that are not past the deadline and of which the
tick is not past it either. -/
theorem toList_occurrences_withDeadline (h : r.ending = none) (start u : DateTime) :
    ((r.withDeadline u).occurrences start).toList =
      (r.occurrences start).toList.filter fun t => t ≤ u && r.tickOf start t ≤ u := by
  have hlate (t : DateTime) :
      (!(r.withDeadline u).deadline?.any (· < t)) = decide (t ≤ u) := by
    simp [withDeadline, deadline?, ← not_lt]
  -- Floors and candidates ascend, so where the sequence stops nothing later is kept either.
  have hfloors : (r.periodsFrom start 0).takeWhile (fun p => decide (p.floor ≤ u)) =
      (r.periodsFrom start 0).filter fun p => p.floor ≤ u := by
    apply Lists.takeWhile_eq_filter
    apply (r.floors_ascend start 0).imp
    intro p q hpq hq
    exact decide_eq_true (le_trans hpq.le (of_decide_eq_true hq))
  have hascend : (((r.periodsFrom start 0).filter fun p => p.floor ≤ u).flatMap
      Period.candidates).Pairwise (· < ·) := by
    refine List.Pairwise.sublist ?_ (r.offers_pairwise_lt start)
    rw [← flatMap_periodsFrom_zero]
    exact List.filter_sublist.flatMap _
  rw [toList_occurrences, toList_occurrences_of_ending_eq_none h,
    periodsFrom_withDeadline, ← flatMap_periodsFrom_zero]
  simp only [hlate]
  rw [hfloors, Lists.takeWhile_eq_filter, Lists.filter_flatMap_filter]
  · rfl
  · intro p hp t ht hu
    obtain ⟨k, -, hperiod⟩ := exists_period?_of_mem_periodsFrom hp
    rw [decide_eq_decide]
    exact floor_le_iff_tickOf_le hperiod ht (of_decide_eq_true hu)
  · apply hascend.imp
    intro a b hab hb
    exact decide_eq_true
      (le_trans (le_of_lt hab) (of_decide_eq_true hb))

/-- A deadline keeps exactly what is not past it if and only if whatever is not past it has
its tick there too.  This is so in rules that are neither hourly nor minutely, and if the
hour or minute in which the deadline lies has its tick no later. -/
theorem withDeadline_keeps_prefix_iff (h : r.ending = none) (start u : DateTime) :
    ((r.withDeadline u).occurrences start).toList =
        (r.occurrences start).toList.filter (fun t => t ≤ u && r.tickOf start t ≤ u) ∧
      (((r.withDeadline u).occurrences start).toList =
          (r.occurrences start).toList.filter (fun t => t ≤ u) ↔
        ∀ t ∈ (r.occurrences start).toList, t ≤ u → r.tickOf start t ≤ u) ∧
      (r.frequency ≠ .hourly ∧ r.frequency ≠ .minutely ∨ r.tickOf start u ≤ u →
        ((r.withDeadline u).occurrences start).toList =
          (r.occurrences start).toList.filter (fun t => t ≤ u)) := by
  have hkept := toList_occurrences_withDeadline h start u
  have hlaw : ((r.withDeadline u).occurrences start).toList =
        (r.occurrences start).toList.filter (fun t => t ≤ u) ↔
      ∀ t ∈ (r.occurrences start).toList, t ≤ u → r.tickOf start t ≤ u := by
    rw [hkept]
    constructor
    · intro heq t ht hu
      -- `t` is kept on the right side, so it is kept on the left one.
      have hmem : t ∈ (r.occurrences start).toList.filter fun t => t ≤ u :=
        List.mem_filter.mpr ⟨ht, decide_eq_true hu⟩
      rw [← heq, List.mem_filter, Bool.and_eq_true] at hmem
      exact of_decide_eq_true hmem.2.2
    · intro hticks
      apply List.filter_congr
      intro t ht
      by_cases hu : t ≤ u
      · simp [hu, hticks t ht hu]
      · simp [hu]
  refine ⟨hkept, hlaw, ?_⟩
  intro hcondition
  apply hlaw.mpr
  intro t _ hu
  rcases hcondition with ⟨hhourly, hminutely⟩ | hlast
  · rw [tickOf_eq_self hhourly hminutely]
    exact hu
  · exact le_trans (r.tickOf_le_tickOf start hu) hlast

/-- Every hour, at its beginning. -/
def onTheHour : Rule :=
  { frequency := .hourly, interval := 1, ending := none, weekStart := .monday, months := [],
    yearDays := [], monthDays := [], weekdays := [], hours := [], minutes := [0],
    seconds := [], setPositions := [], interval_pos := by decide }

/-- A time on 31 January 2024. -/
def thatDay (hour minute second : Nat) : DateTime :=
  ⟨⟨739281, by decide, by decide⟩, (Time.ofClock? hour minute second 0).getD Time.midnight⟩

theorem onTheHour_keeps_prefix :
    onTheHour.ending = none ∧
      ((onTheHour.withDeadline (thatDay 11 15 30)).occurrences (thatDay 9 15 30)).toList =
        [thatDay 10 0 30, thatDay 11 0 30] ∧
      ((onTheHour.withDeadline (thatDay 11 15 30)).occurrences (thatDay 9 15 30)).toList =
        (onTheHour.occurrences (thatDay 9 15 30)).toList.filter
          fun t => t ≤ thatDay 11 15 30 := by
  refine ⟨rfl, by decide +kernel, ?_⟩
  exact (withDeadline_keeps_prefix_iff rfl _ _).2.2 (Or.inr (by decide))

/-- The ticks come a quarter of an hour and half a minute past the hour.  A deadline just
before the tick loses what the hour offers at its beginning. -/
theorem onTheHour_loses_begun_hour :
    onTheHour.Valid ∧ onTheHour.ending = none ∧
      ((onTheHour.withDeadline (thatDay 11 15 0)).occurrences (thatDay 9 15 30)).toList =
        [thatDay 10 0 30] ∧
      (onTheHour.occurrences (thatDay 9 15 30)).item 1 = some (thatDay 11 0 30) ∧
      ((onTheHour.withDeadline (thatDay 11 15 0)).occurrences (thatDay 9 15 30)).toList ≠
        (onTheHour.occurrences (thatDay 9 15 30)).toList.filter
          fun t => t ≤ thatDay 11 15 0 := by
  have hkept : ((onTheHour.withDeadline (thatDay 11 15 0)).occurrences
      (thatDay 9 15 30)).toList = [thatDay 10 0 30] := by decide +kernel
  have hitem : (onTheHour.occurrences (thatDay 9 15 30)).item 1 =
      some (thatDay 11 0 30) := by decide +kernel
  have hbefore : thatDay 11 0 30 ≤ thatDay 11 15 0 := by decide
  refine ⟨by decide, rfl, hkept, hitem, ?_⟩
  intro heq
  rw [Occurrences.item_eq_getElem?] at hitem
  have hmem : thatDay 11 0 30 ∈ (onTheHour.occurrences (thatDay 9 15 30)).toList.filter
      fun t => t ≤ thatDay 11 15 0 :=
    List.mem_filter.mpr ⟨List.mem_of_getElem? hitem, decide_eq_true hbefore⟩
  rw [← heq, hkept, List.mem_singleton] at hmem
  exact absurd hmem (by decide)

end Rule
end Timetable
