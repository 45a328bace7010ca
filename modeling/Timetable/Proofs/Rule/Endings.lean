import Timetable.Proofs.Rule.Bounded
import Timetable.Proofs.Rule.Deadline

/-!
# How sequences end

What a rule occurs at is what its periods offer, up to its ending
(`toList_occurrences_eq_atMost`).  The offers do not depend on the ending, so if the offers
of one rule are a first part of those of another rule with the same ending, or all of them,
so are its occurrences (`toList_occurrences_eq_filter`).

A count keeps the first occurrences.  However a sequence has ended, it stays ended.
-/

namespace Timetable

open Civil

namespace Rule

variable {r s : Rule} {start t : DateTime}

/-- The rule with a count in place of its ending. -/
def withCount (r : Rule) (n : Nat) : Rule :=
  { r with ending := some (.count n) }

/-- The ending of a rule does not change what its periods offer. -/
theorem offers_with_ending (r : Rule) (ending : Option Ending) (start : DateTime) :
    ({ r with ending } : Rule).offers start = r.offers start :=
  List.flatMap_congr fun _ _ => rfl

/-- Without a deadline the occurrences are the first of the offers. -/
theorem toList_occurrences_of_deadline?_eq_none (h : r.deadline? = none) :
    (r.occurrences start).toList = Occurrences.atMost r.count? (r.offers start) := by
  have hall {α : Type} (l : List α) : l.takeWhile (fun _ => true) = l :=
    List.takeWhile_eq_self_iff.mpr fun _ _ => rfl
  rw [toList_occurrences, h, ← flatMap_periodsFrom_zero]
  simp only [Option.any_none, Bool.not_false, hall]

/-- Whether neither a datetime nor its tick is past the deadline, if there is one. -/
def isInTime (r : Rule) (start t : DateTime) : Bool :=
  r.deadline?.all fun u => t ≤ u && r.tickOf start t ≤ u

/-- The occurrences are the offers that are in time, up to the count. -/
theorem toList_occurrences_eq_atMost (r : Rule) (start : DateTime) :
    (r.occurrences start).toList =
      Occurrences.atMost r.count? ((r.offers start).filter (r.isInTime start)) := by
  cases hdeadline : r.deadline? with
  | none =>
      have hall : (r.offers start).filter (r.isInTime start) = r.offers start := by
        rw [List.filter_eq_self]
        intro t _
        rw [isInTime, hdeadline, Option.all_none]
      rw [toList_occurrences_of_deadline?_eq_none hdeadline, hall]
  | some u =>
      have hending : r.ending = some (.deadline u) := by
        unfold deadline? at hdeadline
        split at hdeadline
        next hending => rw [hending, Option.some.inj hdeadline]
        next => simp at hdeadline
      -- The rule is the one without an ending, with the deadline put in its place.
      obtain ⟨endless, hendless⟩ : ∃ endless : Rule, endless = { r with ending := none } :=
        ⟨_, rfl⟩
      have hnone : endless.ending = none := by rw [hendless]
      have hrule : endless.withDeadline u = r := by
        rw [hendless, withDeadline, ← hending]
      have hoffers : endless.offers start = r.offers start := by
        rw [hendless, offers_with_ending]
      have hkept := toList_occurrences_withDeadline hnone start u
      rw [hrule, toList_occurrences_of_ending_eq_none hnone, hoffers] at hkept
      have hcount : r.count? = none := by rw [count?, hending]
      have hinTime : r.isInTime start = fun t => t ≤ u && endless.tickOf start t ≤ u := by
        funext t
        rw [isInTime, hdeadline, Option.all_some, hendless]
        rfl
      rw [hkept, hcount, hinTime, Occurrences.atMost]

/-- A rule of which the offers are a first part of those of another rule with the same
ending occurs at a first part of what that rule occurs at. -/
theorem toList_occurrences_eq_filter {keep : DateTime → Bool}
    (hoffers : r.offers start = (s.offers start).filter keep)
    (hkeep : ∀ a b, a ≤ b → keep b = true → keep a = true) (hending : r.ending = s.ending)
    (hticks : r.deadline? ≠ none → ∀ t ∈ r.offers start, r.tickOf start t = s.tickOf start t) :
    (r.occurrences start).toList = (s.occurrences start).toList.filter keep := by
  have hcount : r.count? = s.count? := by rw [count?, hending, count?]
  have hdeadline : r.deadline? = s.deadline? := by rw [deadline?, hending, deadline?]
  have hinTime : (r.offers start).filter (r.isInTime start) =
      ((s.offers start).filter (s.isInTime start)).filter keep := by
    rw [List.filter_comm, ← hoffers]
    apply List.filter_congr
    intro t ht
    by_cases hnone : r.deadline? = none
    · rw [isInTime, isInTime, ← hdeadline, hnone, Option.all_none, Option.all_none]
    · rw [isInTime, isInTime, hdeadline, hticks hnone t ht]
  rw [toList_occurrences_eq_atMost, toList_occurrences_eq_atMost, hcount, hinTime]
  cases s.count? with
  | none => rfl
  | some n =>
      apply Eq.symm
      apply Lists.filter_take
      apply ((s.offers_pairwise_lt start).filter _).imp
      exact fun hab => hkeep _ _ (le_of_lt hab)

/-- A count keeps the first occurrences. -/
theorem toList_occurrences_withCount (h : r.ending = none) (start : DateTime) (n : Nat) :
    ((r.withCount n).occurrences start).toList = (r.occurrences start).toList.take n := by
  have hdeadline : (r.withCount n).deadline? = none := rfl
  have hcount : (r.withCount n).count? = some n := rfl
  rw [toList_occurrences_of_deadline?_eq_none hdeadline, hcount, withCount, offers_with_ending,
    toList_occurrences_of_ending_eq_none h, Occurrences.atMost]

end Rule

/-! ## The end of a sequence -/

/-- After a call that gives nothing no call gives anything. -/
theorem Occurrences.item_eq_none_of_le {o : Occurrences} {m n : Nat} (hmn : m ≤ n)
    (h : o.item m = none) : o.item n = none := by
  rw [item_eq_getElem?, List.getElem?_eq_none_iff] at h ⊢
  exact Nat.le_trans h hmn

theorem BoundedOccurrences.item_eq_none_of_le {b : BoundedOccurrences} {m n : Nat}
    (hmn : m ≤ n) (h : b.item m = none) : b.item n = none := by
  rw [item_eq_getElem?_coming, List.getElem?_eq_none_iff] at h ⊢
  exact Nat.le_trans h hmn

namespace Rule

/-- A rule with a count occurs at the first occurrences of the rule without an ending, as
many as the count says or as there are.  Whatever the ending, and up to whatever bound a
sequence is followed, no call of `next` gives anything after one that gave nothing. -/
theorem count_takes_first_and_end_is_final (r : Rule) (start : DateTime) :
    (r.ending = none → ∀ n,
        ((r.withCount n).occurrences start).toList = (r.occurrences start).toList.take n) ∧
      (∀ m n, m ≤ n → (r.occurrences start).item m = none →
        (r.occurrences start).item n = none) ∧
      ∀ last m n, m ≤ n → (r.between start last).item m = none →
        (r.between start last).item n = none :=
  ⟨fun h n => toList_occurrences_withCount h start n,
    fun _ _ => Occurrences.item_eq_none_of_le,
    fun _ _ _ => BoundedOccurrences.item_eq_none_of_le⟩

/-- The last Friday of every month, of its two times the later one. -/
def lastFridays : Rule :=
  { frequency := .monthly, interval := 1, ending := none, weekStart := .monday, months := [],
    yearDays := [], monthDays := [], weekdays := [⟨.friday, some (-1)⟩], hours := [17, 9],
    minutes := [0], seconds := [0], setPositions := [-1], interval_pos := Nat.one_pos }

/-- An evening at the end of January 2024, after the last Friday. -/
def januaryEvening : DateTime :=
  (DateTime.ofReading? 2024 1 28 18 0 0 0).get (by decide)

/-- What the first calls of `next` give to a rule with a count of two, as the day's number
and the hour, and what that is in terms of the rule without a count. -/
theorem lastFridays_take_two :
    lastFridays.ending = none ∧
      (((lastFridays.withCount 2).occurrences januaryEvening).toList.map fun t =>
        (t.date.number, t.time.hour)) = [(739304, 17), (739339, 17)] ∧
      ((lastFridays.withCount 2).occurrences januaryEvening).toList =
        (lastFridays.occurrences januaryEvening).toList.take 2 ∧
      ((lastFridays.withCount 2).occurrences januaryEvening).item 2 = none ∧
      ((lastFridays.withCount 2).occurrences januaryEvening).item 1000 = none ∧
      (lastFridays.between januaryEvening januaryEvening).item 0 = none ∧
      (lastFridays.between januaryEvening januaryEvening).item 1000 = none := by
  have hitem : ((lastFridays.withCount 2).occurrences januaryEvening).item 2 = none := by
    decide +kernel
  have hbetween : (lastFridays.between januaryEvening januaryEvening).item 0 = none := by
    decide +kernel
  exact ⟨rfl, by decide +kernel,
    (count_takes_first_and_end_is_final lastFridays januaryEvening).1 rfl 2, hitem,
    (count_takes_first_and_end_is_final (lastFridays.withCount 2) januaryEvening).2.1 2 1000
      (by decide) hitem, hbetween,
    (count_takes_first_and_end_is_final lastFridays januaryEvening).2.2 januaryEvening 0 1000
      (by decide) hbetween⟩

end Rule

end Timetable
