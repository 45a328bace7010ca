import Timetable.Proofs.Rule.Sequence

/-!
# Occurrences up to a bound

The calls of `next` on a bounded sequence give the occurrences that are not later than the
bound, in their order, and then nothing: `between_eq_filter_and_takeWhile`.  As the occurrences
ascend, the first one past the bound is followed by none that is not.
-/

namespace Timetable

open Civil

namespace BoundedOccurrences

/-- What is still to come. -/
def coming (b : BoundedOccurrences) : List DateTime :=
  b.inner.coming.takeWhile (· ≤ b.last)

/-- What the `n`-th call of `next` gives, counted from 0. -/
def item (b : BoundedOccurrences) : Nat → Option DateTime
  | 0 => b.next.1
  | n + 1 => b.next.2.item n

/-- One call gives the first of what is to come and leaves the rest. -/
theorem next_spec (b : BoundedOccurrences) :
    b.next.1 = b.coming.head? ∧ b.next.2.coming = b.coming.tail := by
  have hhead := b.inner.fst_next
  have htail := b.inner.coming_next
  rcases hnext : b.inner.next with ⟨first, inner⟩
  rw [hnext] at hhead htail
  dsimp only at hhead htail
  cases hcoming : b.inner.coming with
  | nil =>
      rw [hcoming] at hhead htail
      obtain rfl : first = none := hhead
      have hstep : b.next = (none, { b with inner }) := by
        rw [next, hnext]
      rw [hstep, coming, coming, htail, hcoming]
      exact ⟨rfl, rfl⟩
  | cons t rest =>
      rw [hcoming] at hhead htail
      obtain rfl : first = some t := hhead
      by_cases hle : t ≤ b.last
      · have hstep : b.next = (some t, { b with inner }) := by
          rw [next, hnext]
          exact if_pos hle
        have htake : (t :: rest).takeWhile (· ≤ b.last) = t :: rest.takeWhile (· ≤ b.last) :=
          List.takeWhile_cons_of_pos (by simpa using hle)
        rw [hstep, coming, coming, htail, hcoming, htake]
        exact ⟨rfl, rfl⟩
      -- Past the bound the inner iterator is finished, so nothing follows.
      · have hstep : b.next = (none, { b with inner := inner.finish }) := by
          rw [next, hnext]
          exact if_neg hle
        rw [hstep, coming, coming, hcoming, List.takeWhile_cons_of_neg (by simpa using hle)]
        exact ⟨rfl, rfl⟩

theorem item_eq_getElem?_coming (b : BoundedOccurrences) (n : Nat) : b.item n = b.coming[n]? := by
  induction n generalizing b with
  | zero => rw [item, b.next_spec.1, List.head?_eq_getElem?]
  | succ n ih => rw [item, ih, b.next_spec.2, List.getElem?_tail]

end BoundedOccurrences

namespace Rule

/-- As the occurrences ascend, those up to the first one past a bound are all that are not
later than the bound. -/
theorem takeWhile_occurrences_eq_filter (r : Rule) (start last : DateTime) :
    (r.occurrences start).toList.takeWhile (· ≤ last) =
      (r.occurrences start).toList.filter (· ≤ last) := by
  apply Lists.takeWhile_eq_filter
  apply (r.toList_occurrences_pairwise_lt start).imp
  intro s t hlt ht
  rw [decide_eq_true_eq] at ht ⊢
  exact le_trans hlt.le ht

/-- The calls of `next` give the occurrences that are not later than the bound. -/
theorem item_between_eq_getElem? (r : Rule) (start last : DateTime) (n : Nat) :
    (r.between start last).item n =
      ((r.occurrences start).toList.filter (· ≤ last))[n]? := by
  rw [BoundedOccurrences.item_eq_getElem?_coming, BoundedOccurrences.coming,
    ← takeWhile_occurrences_eq_filter, Occurrences.toList_eq_coming]
  rfl

/-- Of the sequence that the calls of `next` give to a rule, the calls on the bounded one
give all that is not later than the bound, in the same order, and after that nothing.  It is
both what is left of the sequence if all later occurrences are taken out, and what comes
before the first later one. -/
theorem between_eq_filter_and_takeWhile (r : Rule) (start last : DateTime) :
    (∀ n, (r.occurrences start).item n = (r.occurrences start).toList[n]?) ∧
      (∀ n, (r.between start last).item n =
        ((r.occurrences start).toList.filter (· ≤ last))[n]?) ∧
      (∀ n, (r.between start last).item n =
        ((r.occurrences start).toList.takeWhile (· ≤ last))[n]?) ∧
      ∀ n, ((r.occurrences start).toList.filter (· ≤ last)).length ≤ n →
        (r.between start last).item n = none := by
  have hitem := r.item_between_eq_getElem? start last
  refine ⟨(r.occurrences start).item_eq_getElem?, hitem, ?_, ?_⟩
  · intro n
    rw [hitem, takeWhile_occurrences_eq_filter]
  · intro n hn
    rw [hitem]
    exact List.getElem?_eq_none hn

end Rule
end Timetable
