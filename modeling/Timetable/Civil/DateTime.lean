import Timetable.Civil.Date

/-!
# Times of day and datetimes

A `Time` is a second of the day and a number of nanoseconds past it; a `DateTime` is a time
on a date.  There are no leap seconds and no time zones, so every day has 86400 seconds.

Datetimes are ordered by date, then by second, then by nanosecond.  `lt_iff_instant_lt` says
that this is the order of their distances from the calendar's day 0.
-/

namespace Timetable
namespace Civil

/-- A time of day. -/
structure Time where
  secondOfDay : Nat
  nanosecond : Nat
  secondOfDay_lt : secondOfDay < 86400
  nanosecond_lt : nanosecond < 1000000000
  deriving DecidableEq

namespace Time

/-- The first time of every day. -/
def midnight : Time :=
  ⟨0, 0, by decide, by decide⟩

/-- The hour of the day, 0 to 23. -/
def hour (t : Time) : Nat :=
  t.secondOfDay / 3600

/-- The minute of the hour, 0 to 59. -/
def minute (t : Time) : Nat :=
  t.secondOfDay / 60 % 60

/-- The second of the minute, 0 to 59. -/
def second (t : Time) : Nat :=
  t.secondOfDay % 60

/-- The same nanoseconds past another second of the day. -/
def withSecondOfDay? (t : Time) (second : Nat) : Option Time :=
  if h : second < 86400 then some ⟨second, t.nanosecond, h, t.nanosecond_lt⟩ else none

/-- The time with a whole number of seconds. -/
def truncate (t : Time) : Time :=
  ⟨t.secondOfDay, 0, t.secondOfDay_lt, by decide⟩

/-- The time with the given hour, minute, second and nanosecond, if there is such a time. -/
def ofClock? (hour minute second nanosecond : Nat) : Option Time :=
  if h : hour < 24 ∧ minute < 60 ∧ second < 60 ∧ nanosecond < 1000000000 then
    some ⟨3600 * hour + 60 * minute + second, nanosecond, by omega, h.2.2.2⟩
  else
    none

theorem hour_lt (t : Time) : t.hour < 24 := by
  have := t.secondOfDay_lt
  simp only [hour]
  omega

theorem minute_lt (t : Time) : t.minute < 60 :=
  Nat.mod_lt _ (by decide)

theorem second_lt (t : Time) : t.second < 60 :=
  Nat.mod_lt _ (by decide)

theorem secondOfDay_eq (t : Time) :
    t.secondOfDay = 3600 * t.hour + 60 * t.minute + t.second := by
  simp only [hour, minute, second]
  omega

theorem secondOfDay_eq_iff {s t : Time} :
    s.secondOfDay = t.secondOfDay ↔
      s.hour = t.hour ∧ s.minute = t.minute ∧ s.second = t.second := by
  simp only [hour, minute, second]
  omega

theorem secondOfDay_div_60_eq_iff {s t : Time} :
    s.secondOfDay / 60 = t.secondOfDay / 60 ↔ s.hour = t.hour ∧ s.minute = t.minute := by
  simp only [hour, minute]
  omega

@[simp] theorem ofClock?_components (t : Time) :
    ofClock? t.hour t.minute t.second t.nanosecond = some t := by
  have h : t.hour < 24 ∧ t.minute < 60 ∧ t.second < 60 ∧ t.nanosecond < 1000000000 :=
    ⟨t.hour_lt, t.minute_lt, t.second_lt, t.nanosecond_lt⟩
  rw [ofClock?, dif_pos h]
  cases t
  simp only [Option.some.injEq, mk.injEq, and_true]
  exact (secondOfDay_eq _).symm

theorem components_of_ofClock? {hour minute second nanosecond : Nat} {t : Time}
    (h : ofClock? hour minute second nanosecond = some t) :
    t.hour = hour ∧ t.minute = minute ∧ t.second = second ∧ t.nanosecond = nanosecond := by
  unfold ofClock? at h
  split at h
  next hrange =>
    simp only [Option.some.injEq] at h
    subst h
    obtain ⟨hhour, hminute, hsecond, -⟩ := hrange
    refine ⟨?_, ?_, ?_, rfl⟩
    · show (3600 * hour + 60 * minute + second) / 3600 = hour
      omega
    · show (3600 * hour + 60 * minute + second) / 60 % 60 = minute
      omega
    · show (3600 * hour + 60 * minute + second) % 60 = second
      omega
  next => simp at h

end Time

/-- A time on a date. -/
structure DateTime where
  date : Date
  time : Time
  deriving DecidableEq

namespace DateTime

/-- The nanoseconds from the beginning of the calendar's day 0. -/
def instant (t : DateTime) : Int :=
  (t.date.number * 86400 + t.time.secondOfDay) * 1000000000 + t.time.nanosecond

/-- By date, then by second of the day, then by nanosecond. -/
instance : LT DateTime where
  lt a b :=
    a.date.number < b.date.number ∨
      a.date.number = b.date.number ∧
        (a.time.secondOfDay < b.time.secondOfDay ∨
          a.time.secondOfDay = b.time.secondOfDay ∧ a.time.nanosecond < b.time.nanosecond)

instance : LE DateTime where
  le a b := ¬ b < a

instance (a b : DateTime) : Decidable (a < b) :=
  inferInstanceAs (Decidable (_ ∨ _))

instance (a b : DateTime) : Decidable (a ≤ b) :=
  inferInstanceAs (Decidable (¬ _))

/-- The same second of the clock without nanoseconds. -/
def truncate (t : DateTime) : DateTime :=
  ⟨t.date, t.time.truncate⟩

/-- The greatest number of days by which a datetime can be moved at once: the distance from
1 January 1970 to the last day of the calendar. -/
def greatestDays : Nat := 2932896

/-- The datetime `n` seconds later, if the calendar reaches that far.  Counted from the
midnight before, the distance may not exceed `greatestDays`. -/
def addSeconds? (t : DateTime) (n : Nat) : Option DateTime :=
  let total := t.time.secondOfDay + n
  if total / 86400 ≤ greatestDays then
    (t.date.addDays? (total / 86400 : Nat)).map fun date =>
      ⟨date, total % 86400, t.time.nanosecond, Nat.mod_lt _ (by decide), t.time.nanosecond_lt⟩
  else
    none

/-- The first time of a date. -/
def midnightOf (date : Date) : DateTime :=
  ⟨date, Time.midnight⟩

/-- The datetime with the given components, if there is one.  Months and days count from
one; the second 60 is read as 59. -/
def ofReading? (year : Int) (month day hour minute second nanosecond : Nat) :
    Option DateTime := do
  let month ← Month.ofNumber? month
  let date ← Date.ofDay? ⟨year, month⟩ day
  let time ← Time.ofClock? hour minute (if second = 60 then 59 else second) nanosecond
  return ⟨date, time⟩

theorem lt_iff_instant_lt {a b : DateTime} : a < b ↔ a.instant < b.instant := by
  have ha := a.time.secondOfDay_lt
  have hb := b.time.secondOfDay_lt
  have ha' := a.time.nanosecond_lt
  have hb' := b.time.nanosecond_lt
  show (_ ∨ _ ∧ (_ ∨ _ ∧ _)) ↔ _
  simp only [instant]
  omega

theorem le_iff_instant_le {a b : DateTime} : a ≤ b ↔ a.instant ≤ b.instant := by
  show ¬ b < a ↔ _
  rw [lt_iff_instant_lt]
  omega

/-- When the datetime `n` seconds later exists, and what it is. -/
theorem addSeconds?_eq_some_iff {t u : DateTime} {n : Nat} :
    t.addSeconds? n = some u ↔
      t.time.secondOfDay + n < 86400 * (greatestDays + 1) ∧
        u.date.number = t.date.number + ((t.time.secondOfDay + n) / 86400 : Nat) ∧
        u.time.secondOfDay = (t.time.secondOfDay + n) % 86400 ∧
        u.time.nanosecond = t.time.nanosecond := by
  have hdays : (t.time.secondOfDay + n) / 86400 ≤ greatestDays ↔
      t.time.secondOfDay + n < 86400 * (greatestDays + 1) := by omega
  simp only [addSeconds?, hdays]
  split
  next h =>
    simp only [Option.map_eq_some_iff, Date.addDays?_eq_some_iff, h, true_and]
    constructor
    · rintro ⟨date, hdate, rfl⟩
      exact ⟨hdate, rfl, rfl⟩
    · rintro ⟨hdate, hsecond, hnano⟩
      refine ⟨u.date, hdate, ?_⟩
      obtain ⟨date, second, nanosecond, _, _⟩ := u
      simp_all
  next h => simp [h]

theorem instant_addSeconds? {t u : DateTime} {n : Nat} (h : t.addSeconds? n = some u) :
    u.instant = t.instant + n * 1000000000 := by
  obtain ⟨-, hdate, hsecond, hnano⟩ := addSeconds?_eq_some_iff.mp h
  simp only [instant, hdate, hsecond, hnano]
  omega

end DateTime

end Civil
end Timetable
