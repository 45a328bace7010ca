import Timetable.Proofs.Machine.Word
import Timetable.Proofs.Rule.Ranges
import Timetable.Proofs.Rule.TickByTick

/-!
# Times of day with machine numbers

A time of day is worked out from its hour, minute and second, the times that a rule lists are
gone through one by one, and whether any of them comes up at all is decided by the greatest
common divisor of a tick's distance and a day.

None of this breaks down on the times of a day: `firstTime?_eq`, `gcd_eq`, `neverMatches_eq` and
`gathers_expandTimes` say what comes out.
-/

namespace Timetable
namespace Machine

open Civil

variable {r : Rule} {own : Time}

/-! ## Seconds of the day -/

/-- The seconds past midnight of an hour, a minute and a second. -/
def clockSecond (hour minute second : Nat) : Machine Int := do
  let hours ← Word.signed64.mul hour 3600
  let minutes ← Word.signed64.mul minute 60
  let sum ← Word.signed64.add hours minutes
  Word.signed64.add sum second

/-- The first time of a clock, in ascending order, that is accepted. -/
def firstTime? (c : Clock) (accept : Int → Machine Bool) : Machine (Option Int) :=
  c.hours.findSomeM? fun h => c.minutes.findSomeM? fun m => c.seconds.findSomeM? fun s => do
    let t ← clockSecond h m s
    return if ← accept t then some t else none

theorem clockSecond_eq {hour minute second : Nat} (hhour : hour < 24) (hminute : minute < 60)
    (hsecond : second < 60) :
    clockSecond hour minute second = pure ((3600 * hour + 60 * minute + second : Nat) : Int) := by
  rw [clockSecond, Word.mul_of_holds (Word.holds_signed64_iff.mpr (by omega)), pure_bind,
    Word.mul_of_holds (Word.holds_signed64_iff.mpr (by omega)), pure_bind,
    Word.add_of_holds (Word.holds_signed64_iff.mpr (by omega)), pure_bind,
    Word.add_of_holds (Word.holds_signed64_iff.mpr (by omega))]
  congr 1
  omega

theorem clockSecond_time (t : Time) :
    clockSecond t.hour t.minute t.second = pure (t.secondOfDay : Int) := by
  rw [clockSecond_eq t.hour_lt t.minute_lt t.second_lt, ← t.secondOfDay_eq]

/-- The search through a clock finds what a search through its times finds. -/
theorem firstTime?_eq {c : Clock} (hc : c.Proper) {accept : Int → Machine Bool}
    {accepts : Nat → Bool} (haccept : ∀ t : Nat, t < 86400 → accept t = pure (accepts t)) :
    firstTime? c accept = pure ((c.times.find? accepts).map Int.ofNat) := by
  have hsecond {h m s : Nat} (hh : h ∈ c.hours) (hm : m ∈ c.minutes) (hs : s ∈ c.seconds) :
      (do
        let t ← clockSecond h m s
        return if ← accept t then some t else none : Machine (Option Int)) =
        pure ((Option.guard accepts (3600 * h + 60 * m + s)).map Int.ofNat) := by
    have hlt : 3600 * h + 60 * m + s < 86400 :=
      hc.lt_of_mem_times (Clock.mem_times_iff.mpr ⟨h, hh, m, hm, s, hs, rfl⟩)
    rw [clockSecond_eq (hc.hours_lt h hh) (hc.minutes_lt m hm) (hc.seconds_lt s hs), pure_bind,
      haccept _ hlt, pure_bind, Option.guard]
    cases accepts (3600 * h + 60 * m + s) <;> rfl
  unfold firstTime?
  rw [findSomeM?_of_forall_mem fun h hh => findSomeM?_of_forall_mem fun m hm =>
    findSomeM?_of_forall_mem fun s hs => hsecond hh hm hs]
  congr 1
  simp only [Clock.times, List.find?_flatMap]
  simp only [List.find?_eq_findSome?_guard, List.findSome?_map, List.map_findSome?,
    Function.comp_def]

/-! ## Ticks that come to a time of day -/

/-- The greatest common divisor by repeated division. -/
def gcd (a b : Int) : Machine Int :=
  if _hb : b = 0 then
    return a
  else
    match _hrem : Word.signed64.rem a b with
    | .ok rest => gcd b rest
    | .error breakdown => .error breakdown
termination_by b.natAbs
decreasing_by
  rw [Word.eq_tmod_of_rem_eq_ok _hrem, Int.natAbs_tmod]
  exact Nat.mod_lt _ (by omega)

theorem gcd_eq {a b : Nat} (ha : (a : Int) ≤ Word.signed64.greatest)
    (hb : (b : Int) ≤ Word.signed64.greatest) : gcd a b = pure (Nat.gcd a b : Int) := by
  induction b using Nat.strongRecOn generalizing a with
  | ind b ih =>
      unfold gcd
      split
      next hzero =>
        rw [Int.natCast_eq_zero.mp hzero, Nat.gcd_zero_right]
      next hne =>
        have hpos : 0 < b := by omega
        have hrem := Word.rem_natCast hpos (by decide) ha
        have hlt := Nat.mod_lt a hpos
        split
        next rest hrest =>
          rw [hrem] at hrest
          obtain rfl := Except.ok.inj hrest
          rw [ih _ hlt hb (by omega), Nat.gcd_comm b, ← Nat.gcd_rec, Nat.gcd_comm]
        next hbreakdown =>
          rw [hrem] at hbreakdown
          contradiction

/-- The seconds between two ticks of a rule that is finer than a day. -/
def tickSeconds? (r : Rule) : Option Int :=
  r.frequency.unitSeconds?.bind fun unit => Word.signed64.fit? (unit * r.interval)

/-- Whether a rule has no occurrence for its lists of times alone: it lists no second but 60, or
no tick comes to a time of day that counts. -/
def neverMatches (r : Rule) (start : Time) : Machine Bool := do
  if !r.seconds.isEmpty && r.seconds.all (60 ≤ ·) then
    return true
  let some step := tickSeconds? r | return false
  let reach ← gcd step 86400
  let origin ← clockSecond start.hour start.minute start.second
  let time? ← firstTime? (r.tickTimes start) fun t => do
    let distance ← Word.signed64.sub t origin
    let phase ← Word.signed64.remEuclid distance reach
    return phase == 0
  return time?.isNone

theorem step_le (hranges : r.WithinRanges) {unit : Nat}
    (hunit : r.frequency.unitSeconds? = some unit) : unit * r.interval ≤ 15461882262000 := by
  have hinterval := hranges.interval
  rcases Frequency.unitSeconds?_eq_some_iff.mp hunit with ⟨-, rfl⟩ | ⟨-, rfl⟩ | ⟨-, rfl⟩ <;>
    omega

theorem tickSeconds?_eq_some (hranges : r.WithinRanges) {unit : Nat}
    (hunit : r.frequency.unitSeconds? = some unit) :
    tickSeconds? r = some ((unit * r.interval : Nat) : Int) := by
  have hstep := step_le hranges hunit
  rw [tickSeconds?, hunit, Option.bind_some, ← Int.natCast_mul]
  exact Word.fit?_of_holds (Word.holds_signed64_iff.mpr (by omega))

theorem tickSeconds?_eq_none (hunit : r.frequency.unitSeconds? = none) :
    tickSeconds? r = none := by
  rw [tickSeconds?, hunit, Option.bind_none]

/-- Two times of day are in phase if the remainder of their distance is zero. -/
theorem inPhase_eq {reach origin t : Nat} (hreach : 0 < reach) (horigin : origin < 86400)
    (ht : t < 86400) :
    (do
      let distance ← Word.signed64.sub t origin
      let phase ← Word.signed64.remEuclid distance reach
      return phase == 0 : Machine Bool) = pure (decide (t % reach = origin % reach)) := by
  rw [Word.sub_of_holds (Word.holds_signed64_iff.mpr (by omega)), pure_bind,
    Word.remEuclid_of_holds (by omega)
      (Word.holds_tdiv 86400 (by decide) (by decide) (by omega) _), pure_bind]
  congr 1
  rw [Bool.eq_iff_iff, beq_iff_eq, decide_eq_true_eq, ← Int.emod_eq_emod_iff_emod_sub_eq_zero]
  omega

/-- The greatest common divisor decides which times of day the ticks come to. -/
theorem neverMatches_eq (hranges : r.WithinRanges) (start : Time) :
    neverMatches r start = pure (r.neverOccurs start) := by
  unfold neverMatches Rule.neverOccurs
  split
  next hseconds => rw [hseconds, Bool.true_or]
  next hseconds =>
  rw [Bool.eq_false_iff.mpr hseconds, Bool.false_or]
  cases hunit : r.frequency.unitSeconds? with
  | none => rw [tickSeconds?_eq_none hunit, Option.any_none]
  | some unit =>
      have hstep := step_le hranges hunit
      have hreach : 0 < Nat.gcd (unit * r.interval) 86400 := Nat.gcd_pos_of_pos_right _ (by decide)
      have hgcd : gcd ((unit * r.interval : Nat) : Int) 86400 =
          pure (Nat.gcd (unit * r.interval) 86400 : Int) :=
        gcd_eq (by show (_ : Int) ≤ 9223372036854775807; omega) (by decide)
      rw [tickSeconds?_eq_some hranges hunit, Option.any_some]
      dsimp only
      rw [hgcd, pure_bind, clockSecond_time, pure_bind, firstTime?_eq (r.proper_tickTimes start)
        fun t ht => inPhase_eq hreach start.secondOfDay_lt ht, pure_bind, Rule.reachesTickTime,
        (r.proper_tickTimes start).firstFrom?_eq_find?]
      simp

/-! ## The times of a day -/

/-- The listed numbers, or `own` alone if nothing is listed. -/
def castListed (listed : List Nat) (own : Nat) : Machine (List Int) :=
  if listed.isEmpty then return [(own : Int)] else listed.mapM fun (v : Nat) => Word.signed8.cast v

/-- Some dates at all times that three lists give; what they leave open is taken from `own`. -/
def expandTimes (dates : List Date) (hours minutes seconds : List Nat) (own : Time) :
    Machine (List DateTime) := do
  let hours ← castListed hours own.hour
  let minutes ← castListed minutes own.minute
  let seconds ← castListed seconds own.second
  return dates.flatMap fun date => hours.flatMap fun h => minutes.flatMap fun m =>
    seconds.filterMap fun s =>
      (Time.ofClock? h.toNat m.toNat s.toNat own.nanosecond).map fun time => ⟨date, time⟩

theorem castListed_eq {listed : List Nat} (hlisted : ∀ v ∈ listed, v ≤ 127) (own : Nat) :
    castListed listed own = pure ((Rule.listedOr listed own).map Int.ofNat) := by
  unfold castListed Rule.listedOr
  split
  · rfl
  · refine mapM_of_forall_mem fun v hv => ?_
    have hle := hlisted v hv
    exact Word.cast_of_holds (Word.holds_signed8_iff.mpr (by omega))

/-- The times are those whose hour, minute and second are listed. -/
theorem gathers_expandTimes (dates : List Date) {hours minutes seconds : List Nat}
    (hhours : ∀ v ∈ hours, v ≤ 127) (hminutes : ∀ v ∈ minutes, v ≤ 127)
    (hseconds : ∀ v ∈ seconds, v ≤ 127) (own : Time) :
    Gathers (expandTimes dates hours minutes seconds own) fun t =>
      t.date ∈ dates ∧ t.time.hour ∈ Rule.listedOr hours own.hour ∧
        t.time.minute ∈ Rule.listedOr minutes own.minute ∧
        t.time.second ∈ Rule.listedOr seconds own.second ∧
        t.time.nanosecond = own.nanosecond := by
  rw [expandTimes, castListed_eq hhours, pure_bind, castListed_eq hminutes, pure_bind,
    castListed_eq hseconds, pure_bind]
  refine gathers_pure fun t => ?_
  simp only [List.mem_flatMap, List.mem_filterMap, List.mem_map, Option.map_eq_some_iff,
    Time.ofClock?_eq_some_iff]
  constructor
  · rintro ⟨date, hdate, -, ⟨h, hh, rfl⟩, -, ⟨m, hm, rfl⟩, -, ⟨s, hs, rfl⟩, time,
      ⟨hhour, hminute, hsecond, hnano⟩, rfl⟩
    simp only [Int.ofNat_eq_natCast, Int.toNat_natCast] at hhour hminute hsecond
    subst hhour hminute hsecond
    exact ⟨hdate, hh, hm, hs, hnano⟩
  · rintro ⟨hdate, hh, hm, hs, hnano⟩
    exact ⟨t.date, hdate, _, ⟨_, hh, rfl⟩, _, ⟨_, hm, rfl⟩, _, ⟨_, hs, rfl⟩, t.time,
      ⟨rfl, rfl, rfl, hnano⟩, rfl⟩

end Machine
end Timetable
