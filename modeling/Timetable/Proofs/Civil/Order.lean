import Mathlib.Data.List.Dedup
import Mathlib.Data.List.Sort
import Timetable.Civil.DateTime

/-!
# The order of datetimes

Datetimes are ordered as their instants are, so the order is linear.  A list of datetimes
that ascends strictly is determined by its members (`List.Pairwise.eq_of_mem_iff`);
`DateTime.ascending` brings any list into that form.

`wholeSeconds` counts the seconds from the calendar's day 0 and leaves the nanoseconds
out.  Datetimes with different counts are ordered as their counts are.
-/

namespace Timetable
namespace Civil

namespace Time

/-- A time is found again from its components, and only from these. -/
theorem ofClock?_eq_some_iff {hour minute second nanosecond : Nat} {t : Time} :
    ofClock? hour minute second nanosecond = some t ↔
      t.hour = hour ∧ t.minute = minute ∧ t.second = second ∧ t.nanosecond = nanosecond := by
  constructor
  · exact components_of_ofClock?
  · rintro ⟨rfl, rfl, rfl, rfl⟩
    exact ofClock?_components t

end Time

namespace DateTime

theorem ext_instant {a b : DateTime} (h : a.instant = b.instant) : a = b := by
  obtain ⟨⟨day, _, _⟩, ⟨second, nano, hsecond, hnano⟩⟩ := a
  obtain ⟨⟨day', _, _⟩, ⟨second', nano', hsecond', hnano'⟩⟩ := b
  simp only [instant] at h
  obtain ⟨rfl, rfl, rfl⟩ : day = day' ∧ second = second' ∧ nano = nano' := by omega
  rfl

/-- Datetimes are ordered linearly, as their instants are. -/
instance : LinearOrder DateTime where
  le_refl a := le_iff_instant_le.mpr (Int.le_refl _)
  le_trans a b c hab hbc := by
    rw [le_iff_instant_le] at *
    omega
  lt_iff_le_not_ge a b := by
    rw [lt_iff_instant_lt, le_iff_instant_le, le_iff_instant_le]
    omega
  le_antisymm a b hab hba := by
    rw [le_iff_instant_le] at *
    exact ext_instant (by omega)
  le_total a b := by
    rw [le_iff_instant_le, le_iff_instant_le]
    omega
  toDecidableLE := inferInstance

/-- The whole seconds from the beginning of the calendar's day 0. -/
def wholeSeconds (t : DateTime) : Int :=
  t.date.number * 86400 + t.time.secondOfDay

theorem lt_of_wholeSeconds_lt {a b : DateTime} (h : a.wholeSeconds < b.wholeSeconds) :
    a < b := by
  have ha := a.time.nanosecond_lt
  simp only [wholeSeconds] at h
  rw [lt_iff_instant_lt, instant, instant]
  omega

theorem wholeSeconds_le_of_le {a b : DateTime} (h : a ≤ b) :
    a.wholeSeconds ≤ b.wholeSeconds := by
  by_contra hlt
  exact h (lt_of_wholeSeconds_lt (by omega))

theorem wholeSeconds_addSeconds? {t u : DateTime} {n : Nat} (h : t.addSeconds? n = some u) :
    u.wholeSeconds = t.wholeSeconds + n := by
  obtain ⟨-, hdate, hsecond, -⟩ := addSeconds?_eq_some_iff.mp h
  simp only [wholeSeconds, hdate, hsecond]
  omega

/-- A datetime is its whole seconds and its nanoseconds. -/
theorem ext_wholeSeconds {a b : DateTime} (hseconds : a.wholeSeconds = b.wholeSeconds)
    (hnano : a.time.nanosecond = b.time.nanosecond) : a = b := by
  apply ext_instant
  simp only [wholeSeconds] at hseconds
  simp only [instant, hnano, hseconds]

theorem number_le_of_le {a b : DateTime} (h : a ≤ b) : a.date.number ≤ b.date.number := by
  by_contra hlt
  exact h (.inl (Int.not_le.mp hlt))

/-- Midnight is the first time of its date. -/
theorem midnightOf_le {date : Date} {t : DateTime} (h : date.number ≤ t.date.number) :
    midnightOf date ≤ t := by
  rw [le_iff_instant_le]
  simp only [instant, midnightOf, Time.midnight]
  omega

/-- The datetimes of a list in ascending order, each of them once. -/
def ascending (l : List DateTime) : List DateTime :=
  l.dedup.mergeSort fun a b => a ≤ b

@[simp] theorem ascending_nil : ascending [] = [] := by
  simp [ascending]

@[simp] theorem mem_ascending {l : List DateTime} {t : DateTime} :
    t ∈ ascending l ↔ t ∈ l := by
  simp [ascending]

theorem ascending_pairwise_lt (l : List DateTime) : (ascending l).Pairwise (· < ·) := by
  have hsorted : (ascending l).Pairwise (· ≤ ·) := List.pairwise_mergeSort' _ _
  have hnodup : (ascending l).Nodup :=
    (List.mergeSort_perm _ _).nodup_iff.mpr (List.nodup_dedup l)
  apply (hsorted.and hnodup).imp
  rintro a b ⟨hle, hne⟩
  exact lt_of_le_of_ne hle hne

end DateTime

end Civil
end Timetable
