import Timetable.Proofs.Civil.Order
import Timetable.Proofs.Lists
import Timetable.Rule.Clock

/-!
# The times of a clock

The clocks that rules work with hold hours below 24 and minutes and seconds below 60, each
in ascending order: `Clock.Proper`.  The times of such a clock ascend and are times of a
day, and `Clock.firstFrom?` finds the first one that is wanted, whatever hours and minutes
it passes over.

On one date a rule has a datetime for every time of its expansion: `mem_datetimesOn_iff`.
-/

namespace Timetable

open Civil

namespace Clock

/-- What holds of the clocks of rules: the lists ascend and stay below their bounds. -/
structure Proper (c : Clock) : Prop where
  hours_lt : ∀ h ∈ c.hours, h < 24
  minutes_lt : ∀ m ∈ c.minutes, m < 60
  seconds_lt : ∀ s ∈ c.seconds, s < 60
  hours_ascend : c.hours.Pairwise (· < ·)
  minutes_ascend : c.minutes.Pairwise (· < ·)
  seconds_ascend : c.seconds.Pairwise (· < ·)

theorem mem_times_iff {c : Clock} {t : Nat} :
    t ∈ c.times ↔
      ∃ h ∈ c.hours, ∃ m ∈ c.minutes, ∃ s ∈ c.seconds, 3600 * h + 60 * m + s = t := by
  simp [times]

namespace Proper

variable {c : Clock}

theorem lt_of_mem_times (hc : c.Proper) {t : Nat} (ht : t ∈ c.times) : t < 86400 := by
  obtain ⟨h, hh, m, hm, s, hs, rfl⟩ := mem_times_iff.mp ht
  have hhour := hc.hours_lt h hh
  have hminute := hc.minutes_lt m hm
  have hsecond := hc.seconds_lt s hs
  omega

/-- The members of a time are found again in the time. -/
theorem mem_times_iff_components (hc : c.Proper) {t : Nat} :
    t ∈ c.times ↔ t / 3600 ∈ c.hours ∧ t / 60 % 60 ∈ c.minutes ∧ t % 60 ∈ c.seconds := by
  rw [mem_times_iff]
  constructor
  · rintro ⟨h, hh, m, hm, s, hs, rfl⟩
    have hminute := hc.minutes_lt m hm
    have hsecond := hc.seconds_lt s hs
    rw [show (3600 * h + 60 * m + s) / 3600 = h by omega,
      show (3600 * h + 60 * m + s) / 60 % 60 = m by omega,
      show (3600 * h + 60 * m + s) % 60 = s by omega]
    exact ⟨hh, hm, hs⟩
  · rintro ⟨hh, hm, hs⟩
    exact ⟨_, hh, _, hm, _, hs, by omega⟩

theorem times_ascend (hc : c.Proper) : c.times.Pairwise (· < ·) := by
  unfold times
  rw [List.pairwise_flatMap]
  constructor
  · intro h _
    rw [List.pairwise_flatMap]
    constructor
    · intro m _
      rw [List.pairwise_map]
      exact hc.seconds_ascend.imp fun hlt => by omega
    · apply hc.minutes_ascend.imp
      simp only [List.mem_map]
      rintro m m' hlt _ ⟨s, hs, rfl⟩ _ ⟨s', -, rfl⟩
      have hsecond := hc.seconds_lt s hs
      omega
  · apply hc.hours_ascend.imp
    simp only [List.mem_flatMap, List.mem_map]
    rintro h h' hlt _ ⟨m, hm, s, hs, rfl⟩ _ ⟨m', -, s', -, rfl⟩
    have hminute := hc.minutes_lt m hm
    have hsecond := hc.seconds_lt s hs
    omega

end Proper

/-- Passing over hours and minutes that are over loses nothing. -/
theorem Proper.firstFrom?_eq_find? {c : Clock} (hc : c.Proper) (start : Nat)
    (accept : Nat → Bool) :
    c.firstFrom? start accept = c.times.find? fun t => start ≤ t && accept t := by
  -- First for the minutes of one hour, then in the same way for the hours.
  have hminutes (h : Nat) :
      ((c.minutes.filter fun m => start < 3600 * h + 60 * (m + 1)).findSome? fun m =>
        (c.seconds.map fun s => 3600 * h + 60 * m + s).find? fun t => start ≤ t && accept t) =
      (c.minutes.flatMap fun m => c.seconds.map fun s => 3600 * h + 60 * m + s).find?
        fun t => start ≤ t && accept t := by
    rw [List.find?_flatMap]
    apply Lists.findSome?_filter
    intro m _ hover
    simp only [decide_eq_false_iff_not] at hover
    simp only [List.find?_eq_none, List.mem_map]
    rintro _ ⟨s, hs, rfl⟩
    have hsecond := hc.seconds_lt s hs
    simp only [Bool.and_eq_true, decide_eq_true_eq]
    omega
  unfold firstFrom? times
  rw [List.find?_flatMap]
  simp only [hminutes]
  apply Lists.findSome?_filter
  intro h _ hover
  simp only [decide_eq_false_iff_not] at hover
  simp only [List.find?_eq_none, List.mem_flatMap, List.mem_map]
  rintro _ ⟨m, hm, s, hs, rfl⟩
  have hminute := hc.minutes_lt m hm
  have hsecond := hc.seconds_lt s hs
  simp only [Bool.and_eq_true, decide_eq_true_eq]
  omega

/-- The time that is found is wanted, and no earlier one is. -/
theorem Proper.firstFrom?_eq_some {c : Clock} (hc : c.Proper) {start t : Nat}
    {accept : Nat → Bool} (h : c.firstFrom? start accept = some t) :
    t ∈ c.times ∧ start ≤ t ∧ accept t = true ∧
      ∀ u ∈ c.times, start ≤ u → accept u = true → t ≤ u := by
  rw [hc.firstFrom?_eq_find?] at h
  have hwanted := List.find?_some h
  rw [Bool.and_eq_true, decide_eq_true_iff] at hwanted
  refine ⟨List.mem_of_find?_eq_some h, hwanted.1, hwanted.2, ?_⟩
  intro u hu hstart haccept
  apply Lists.le_of_find?_eq_some hc.times_ascend h hu
  rw [haccept, Bool.and_true, decide_eq_true_iff]
  exact hstart

theorem Proper.firstFrom?_eq_none_iff {c : Clock} (hc : c.Proper) {start : Nat}
    {accept : Nat → Bool} :
    c.firstFrom? start accept = none ↔
      ∀ u ∈ c.times, start ≤ u → accept u = false := by
  rw [hc.firstFrom?_eq_find?]
  simp

theorem mem_limit_iff {listed : List Nat} {bound v : Nat} :
    v ∈ limit listed bound ↔ v < bound ∧ (listed = [] ∨ v ∈ listed) := by
  simp [limit]

theorem limit_ascends (listed : List Nat) (bound : Nat) :
    (limit listed bound).Pairwise (· < ·) :=
  List.pairwise_lt_range.filter _

theorem mem_expand_iff {listed : List Nat} {bound own v : Nat} :
    v ∈ expand listed bound own ↔
      listed = [] ∧ v = own ∨ listed ≠ [] ∧ v < bound ∧ v ∈ listed := by
  unfold expand
  by_cases h : listed = []
  · simp [h]
  · simp [h, mem_limit_iff]

theorem expand_ascends (listed : List Nat) (bound own : Nat) :
    (expand listed bound own).Pairwise (· < ·) := by
  unfold expand
  split
  · exact List.pairwise_singleton _ own
  · exact limit_ascends listed bound

theorem lt_of_mem_expand {listed : List Nat} {bound own v : Nat} (hown : own < bound)
    (h : v ∈ expand listed bound own) : v < bound := by
  rcases mem_expand_iff.mp h with ⟨-, rfl⟩ | ⟨-, hlt, -⟩
  · exact hown
  · exact hlt

end Clock

namespace Rule

theorem proper_expansion (r : Rule) (own : Time) : (r.expansion own).Proper := by
  have hsingle (v : Nat) : [v].Pairwise (· < ·) := List.pairwise_singleton _ v
  have hmem {bound v : Nat} (hv : v < bound) : ∀ u ∈ [v], u < bound := by
    rintro u hu
    rwa [List.mem_singleton.mp hu]
  have hexpand (listed : List Nat) {bound v : Nat} (hv : v < bound) :
      ∀ u ∈ Clock.expand listed bound v, u < bound :=
    fun u hu => Clock.lt_of_mem_expand hv hu
  have hhour := own.hour_lt
  have hminute := own.minute_lt
  have hsecond := own.second_lt
  unfold expansion
  cases r.frequency <;> constructor <;>
    first
    | exact hmem ‹_›
    | exact hexpand _ ‹_›
    | exact hsingle _
    | exact Clock.expand_ascends _ _ _

theorem proper_tickTimes (r : Rule) (start : Time) : (r.tickTimes start).Proper := by
  have hlimit (listed : List Nat) (bound : Nat) : ∀ u ∈ Clock.limit listed bound, u < bound :=
    fun u hu => (Clock.mem_limit_iff.mp hu).1
  unfold tickTimes
  cases r.frequency <;> constructor <;>
    first
    | exact hlimit _ _
    | exact Clock.limit_ascends _ _
    | exact List.pairwise_singleton _ _
    | exact List.forall_mem_singleton.mpr start.minute_lt
    | exact List.forall_mem_singleton.mpr start.second_lt

theorem mem_datetimesOn_iff {r : Rule} {own : Time} {date : Date} {t : DateTime} :
    t ∈ r.datetimesOn own date ↔
      t.date = date ∧ t.time.secondOfDay ∈ (r.expansion own).times ∧
        t.time.nanosecond = own.nanosecond := by
  simp only [datetimesOn, List.mem_filterMap, Option.map_eq_some_iff]
  constructor
  · rintro ⟨second, hsecond, time, htime, rfl⟩
    unfold Time.withSecondOfDay? at htime
    split at htime
    · obtain rfl := Option.some.inj htime
      exact ⟨rfl, hsecond, rfl⟩
    · simp at htime
  · rintro ⟨rfl, hsecond, hnano⟩
    refine ⟨_, hsecond, t.time, ?_, rfl⟩
    rw [Time.withSecondOfDay?, dif_pos t.time.secondOfDay_lt]
    simp only [← hnano]

theorem datetimesOn_ascend (r : Rule) (own : Time) (date : Date) :
    (r.datetimesOn own date).Pairwise (· < ·) := by
  unfold datetimesOn
  rw [List.pairwise_filterMap]
  apply (r.proper_expansion own).times_ascend.imp
  simp only [Option.map_eq_some_iff]
  rintro second later hlt _ ⟨time, htime, rfl⟩ _ ⟨time', htime', rfl⟩
  unfold Time.withSecondOfDay? at htime htime'
  split at htime
  · split at htime'
    · obtain rfl := Option.some.inj htime
      obtain rfl := Option.some.inj htime'
      exact .inr ⟨rfl, .inl hlt⟩
    · simp at htime'
  · simp at htime

end Rule
end Timetable
