import Mathlib.Data.List.Flatten
import Mathlib.Data.List.TakeWhile
import Timetable.Proofs.Rule.Offers

/-!
# The sequence of a rule's occurrences

`Occurrences.toList` is everything that `next` still gives at a place, and
`Occurrences.item` what a particular call gives.  Both are read off `Occurrences.coming`,
which says without a search what is still to come: the pending candidates and those of the
periods ahead, up to the deadline and the count.  One call of `next` gives the head of
`coming` and leaves its tail: `fst_next` and `coming_next`.

For a rule without an ending `coming` is what all the periods offer, those that are passed
over included: `toList_occurrences_of_ending_eq_none`.  Every other rule's occurrences are
some of these, in the same order, so every rule's occurrences ascend: `occurrences_ascend`.
-/

namespace Timetable

open Civil

namespace Rule

variable {r : Rule} {start : DateTime} {k : Nat} {p : Period}

/-- The periods that are evaluated from a number on. -/
def periodsFrom (r : Rule) (start : DateTime) (k : Nat) : List Period :=
  match _hperiod : r.period? start k with
  | none => []
  | some p => p :: r.periodsFrom start p.following
termination_by periodLimit - k
decreasing_by
  have hfollowing := lt_following_of_period? _hperiod
  have hlimit := lt_periodLimit_of_period? _hperiod
  omega

theorem periodsFrom_of_eq_none (h : r.period? start k = none) :
    r.periodsFrom start k = [] := by
  rw [periodsFrom]
  split
  · rfl
  next hsome =>
    rw [h] at hsome
    simp at hsome

theorem periodsFrom_of_eq_some (h : r.period? start k = some p) :
    r.periodsFrom start k = p :: r.periodsFrom start p.following := by
  rw [periodsFrom]
  split
  next hnone =>
    rw [h] at hnone
    simp at hnone
  next q hsome =>
    rw [h, Option.some.injEq] at hsome
    rw [hsome]

/-- Everything that the periods of a rule offer, whether they are evaluated or passed
over. -/
def offers (r : Rule) (start : DateTime) : List DateTime :=
  (List.range periodLimit).flatMap (r.offer start)

/-- Passing over periods loses nothing of what is offered. -/
theorem flatMap_periodsFrom (r : Rule) (start : DateTime) (k : Nat) :
    (r.periodsFrom start k).flatMap Period.candidates =
      (List.range' k (periodLimit - k)).flatMap (r.offer start) := by
  induction hleft : periodLimit - k using Nat.strongRecOn generalizing k with
  | ind left ih =>
      cases hperiod : r.period? start k with
      | none =>
          rw [periodsFrom_of_eq_none hperiod, Lists.flatMap_range'_eq_nil]
          · rfl
          · intro j hkj _
            exact offer_eq_nil_of_le hperiod hkj
      | some p =>
          have hfollowing := lt_following_of_period? hperiod
          have hlimit := lt_periodLimit_of_period? hperiod
          rw [periodsFrom_of_eq_some hperiod, List.flatMap_cons,
            ih _ (by omega) p.following rfl, ← offer_of_period? hperiod]
          -- The range is number `k`, what is passed over, and what follows.
          obtain ⟨passed, hpassed⟩ : ∃ passed,
              passed = min (p.following - (k + 1)) (left - 1) := ⟨_, rfl⟩
          have hskipped : (List.range' (k + 1) passed).flatMap (r.offer start) = [] := by
            apply Lists.flatMap_range'_eq_nil
            intro j hkj hj
            exact offer_eq_nil_of_lt_following hperiod hkj (by omega)
          have hrest : (List.range' (k + 1 + passed) (left - 1 - passed)).flatMap
              (r.offer start) =
                (List.range' p.following (periodLimit - p.following)).flatMap
                  (r.offer start) := by
            by_cases hend : p.following ≤ periodLimit
            · rw [show k + 1 + passed = p.following by omega,
                show left - 1 - passed = periodLimit - p.following by omega]
            · rw [show left - 1 - passed = 0 by omega,
                show periodLimit - p.following = 0 by omega]
              rfl
          rw [show left = 1 + (passed + (left - 1 - passed)) by omega,
            ← List.range'_append_1, ← List.range'_append_1, List.flatMap_append,
            List.flatMap_append, hskipped, hrest]
          simp

theorem flatMap_periodsFrom_zero (r : Rule) (start : DateTime) :
    (r.periodsFrom start 0).flatMap Period.candidates = r.offers start := by
  rw [flatMap_periodsFrom, offers, List.range_eq_range', Nat.sub_zero]

theorem offers_pairwise_lt (r : Rule) (start : DateTime) :
    (r.offers start).Pairwise (· < ·) :=
  r.offers_ascend start List.pairwise_lt_range

theorem mem_offers_iff {t : DateTime} :
    t ∈ r.offers start ↔ ∃ k, t ∈ r.offer start k := by
  simp only [offers, List.mem_flatMap, List.mem_range]
  constructor
  · rintro ⟨k, -, ht⟩
    exact ⟨k, ht⟩
  · rintro ⟨k, ht⟩
    obtain ⟨p, hp, -⟩ := exists_period?_of_mem_offer ht
    exact ⟨k, lt_periodLimit_of_period? hp, ht⟩

end Rule

namespace Occurrences

/-- A list cut off after a number of members, if there is one. -/
def atMost {α : Type} (n : Option Nat) (l : List α) : List α :=
  match n with
  | none => l
  | some n => l.take n

/-- What is still to come up to the deadline, however many occurrences the count allows. -/
def due (o : Occurrences) : List DateTime :=
  (o.pending ++
    ((o.rule.periodsFrom o.start o.period).takeWhile fun p => !o.isTooLate p.floor).flatMap
      Period.candidates).takeWhile fun t => !o.isTooLate t

/-- What is still to come. -/
def coming (o : Occurrences) : List DateTime :=
  if o.ended then [] else atMost o.remaining o.due

@[simp] theorem coming_finish (o : Occurrences) : o.finish.coming = [] := rfl

theorem sublist_atMost {α : Type} (n : Option Nat) (l : List α) : (atMost n l).Sublist l := by
  cases n with
  | none => exact List.Sublist.refl l
  | some n => exact List.take_sublist n l

@[simp] theorem coming_of_ended {o : Occurrences} (h : o.ended = true) :
    o.coming = [] := by
  simp [coming, h]

theorem coming_of_not_ended {o : Occurrences} (h : o.ended = false) :
    o.coming = atMost o.remaining o.due := by
  simp [coming, h]

private theorem atMost_nil {α : Type} (n : Option Nat) : atMost n ([] : List α) = [] := by
  cases n <;> simp [atMost]

/-- A first member leaves room for one member less. -/
private theorem atMost_cons {α : Type} {n : Option Nat} (h : n ≠ some 0) (a : α)
    (l : List α) : atMost n (a :: l) = a :: atMost (n.map (· - 1)) l := by
  cases n with
  | none => rfl
  | some n =>
      cases n with
      | zero => exact absurd rfl h
      | succ n => rfl

/-! ## One call of `next` -/

theorem advance_of_cons {o : Occurrences} {t : DateTime} {rest : List DateTime}
    (h : o.pending = t :: rest) :
    o.advance = if o.isTooLate t then (none, o.finish)
      else (some t, { o with pending := rest, remaining := o.remaining.map (· - 1) }) := by
  rw [advance, h]

theorem advance_of_eq_none {o : Occurrences} (hpending : o.pending = [])
    (hperiod : o.rule.period? o.start o.period = none) : o.advance = (none, o.finish) := by
  rw [advance, hpending]
  dsimp only
  split
  · rfl
  next p hsome =>
    rw [hperiod] at hsome
    simp at hsome

theorem advance_of_eq_some {o : Occurrences} {p : Period} (hpending : o.pending = [])
    (hperiod : o.rule.period? o.start o.period = some p) :
    o.advance = if o.isTooLate p.floor then (none, o.finish)
      else advance { o with pending := p.candidates, period := p.following } := by
  rw [advance, hpending]
  dsimp only
  split
  next hnone =>
    rw [hperiod] at hnone
    simp at hnone
  next q hsome =>
    rw [hperiod, Option.some.injEq] at hsome
    rw [hsome]

/-- What `advance` gives is the first thing due, and the rest of it is still to come. -/
private theorem advance_eq (o : Occurrences) (hended : o.ended = false)
    (hremaining : o.remaining ≠ some 0) :
    o.advance.1 = o.due.head? ∧ o.advance.2.coming = o.coming.tail := by
  have hfinish {o : Occurrences} (hended : o.ended = false) (hdue : o.due = []) :
      (none : Option DateTime) = o.due.head? ∧ o.finish.coming = o.coming.tail := by
    rw [coming_of_not_ended hended, hdue, atMost_nil]
    exact ⟨rfl, rfl⟩
  induction o using advance.induct with
  | case1 o t rest hpending hlate =>
      -- The first pending candidate is past the deadline.
      rw [advance_of_cons hpending, if_pos hlate]
      apply hfinish hended
      simp [due, hpending, hlate]
  | case2 o t rest hpending hlate =>
      have hdue : o.due = t :: due { o with pending := rest } := by
        simp only [due, hpending, List.cons_append]
        rw [List.takeWhile_cons_of_pos (by simpa using hlate)]
        rfl
      rw [advance_of_cons hpending, if_neg hlate, coming_of_not_ended hended, hdue,
        atMost_cons hremaining]
      exact ⟨rfl, coming_of_not_ended hended⟩
  | case3 o hpending hperiod =>
      -- Nothing is pending, and the calendar has ended.
      rw [advance_of_eq_none hpending hperiod]
      apply hfinish hended
      simp [due, hpending, Rule.periodsFrom_of_eq_none hperiod]
  | case4 o hpending p hperiod hlate =>
      -- The next period's floor is past the deadline.
      rw [advance_of_eq_some hpending hperiod, if_pos hlate]
      apply hfinish hended
      simp [due, hpending, Rule.periodsFrom_of_eq_some hperiod, hlate]
  | case5 o hpending p hperiod hlate ih =>
      -- The candidates of the next period become pending: nothing due is lost.
      have hdue : due { o with pending := p.candidates, period := p.following } = o.due := by
        simp only [due, hpending, Rule.periodsFrom_of_eq_some hperiod, List.nil_append]
        rw [List.takeWhile_cons_of_pos (by simpa using hlate), List.flatMap_cons]
        rfl
      have hcoming : coming { o with pending := p.candidates, period := p.following } =
          o.coming := by
        unfold coming
        rw [hdue]
      rw [advance_of_eq_some hpending hperiod, if_neg hlate, ← hdue, ← hcoming]
      exact ih hended hremaining

/-- A call gives the first thing to come. -/
theorem fst_next (o : Occurrences) : o.next.1 = o.coming.head? := by
  unfold next
  split
  next hended => rw [coming_of_ended hended]; rfl
  next hended =>
    rw [Bool.not_eq_true] at hended
    split
    next hremaining => simp [coming_of_not_ended hended, hremaining, atMost]
    next hremaining =>
      rw [(o.advance_eq hended hremaining).1, coming_of_not_ended hended]
      cases hdue : o.due with
      | nil => rw [atMost_nil]
      | cons t ts => rw [atMost_cons hremaining, List.head?_cons, List.head?_cons]

/-- A call leaves the rest of what is to come. -/
theorem coming_next (o : Occurrences) : o.next.2.coming = o.coming.tail := by
  unfold next
  split
  next hended => rw [coming_of_ended hended, List.tail_nil]
  next hended =>
    rw [Bool.not_eq_true] at hended
    split
    next hremaining => simp [coming_of_not_ended hended, hremaining, atMost]
    next hremaining => exact (o.advance_eq hended hremaining).2

/-! ## Many calls -/

/-- Everything that `next` still gives. -/
def toList (o : Occurrences) : List DateTime :=
  match _hnext : o.next with
  | (none, _) => []
  | (some t, rest) => t :: rest.toList
termination_by o.coming.length
decreasing_by
  have hcoming := o.coming_next
  have hhead := o.fst_next
  rw [_hnext] at hcoming hhead
  dsimp only at hcoming hhead
  rw [hcoming]
  cases h : o.coming with
  | nil => simp [h] at hhead
  | cons => simp

/-- What call number `n` gives, counted from 0. -/
def item (o : Occurrences) : Nat → Option DateTime
  | 0 => o.next.1
  | n + 1 => o.next.2.item n

theorem toList_eq_coming (o : Occurrences) : o.toList = o.coming := by
  induction o using toList.induct with
  | case1 o rest hnext =>
      have hhead := o.fst_next
      rw [hnext] at hhead
      rw [List.head?_eq_none_iff.mp hhead.symm, toList]
      split <;> simp_all
  | case2 o t rest hnext ih =>
      have hhead := o.fst_next
      have htail := o.coming_next
      rw [hnext] at hhead htail
      rw [toList]
      split
      next hnone => simp [hnone] at hnext
      next t' rest' hsome =>
        rw [hnext, Prod.mk.injEq, Option.some.injEq] at hsome
        obtain ⟨rfl, rfl⟩ := hsome
        rw [ih, htail]
        exact List.cons_head?_tail hhead.symm

theorem item_eq_getElem? (o : Occurrences) (n : Nat) : o.item n = o.toList[n]? := by
  rw [toList_eq_coming]
  induction n generalizing o with
  | zero => rw [item, fst_next, List.head?_eq_getElem?]
  | succ n ih => rw [item, ih, coming_next, List.getElem?_tail]

theorem mem_toList_of_item_eq_some {o : Occurrences} {n : Nat} {t : DateTime}
    (h : o.item n = some t) : t ∈ o.toList := by
  rw [item_eq_getElem?] at h
  exact List.mem_of_getElem? h

end Occurrences

namespace Rule

variable {r : Rule} {start : DateTime}

theorem offers_of_neverOccurs (h : r.neverOccurs start.time = true) :
    r.offers start = [] := by
  rw [offers, List.flatMap_eq_nil_iff]
  intro k _
  exact offer_of_neverOccurs h k

/-- The candidates of some of the evaluated periods are among all that is offered. -/
theorem flatMap_takeWhile_sublist (r : Rule) (start : DateTime) (b : Period → Bool) :
    (((r.periodsFrom start 0).takeWhile b).flatMap Period.candidates).Sublist
      (r.offers start) := by
  rw [← flatMap_periodsFrom_zero]
  exact (List.takeWhile_sublist b).flatMap _

/-- The occurrences of a rule: up to the deadline and the count, the candidates of the
evaluated periods. -/
theorem toList_occurrences (r : Rule) (start : DateTime) :
    (r.occurrences start).toList =
      Occurrences.atMost r.count?
        ((((r.periodsFrom start 0).takeWhile fun p => !r.deadline?.any (· < p.floor)).flatMap
          Period.candidates).takeWhile fun t => !r.deadline?.any (· < t)) := by
  rw [Occurrences.toList_eq_coming]
  cases hnever : r.neverOccurs start.time with
  | false => exact Occurrences.coming_of_not_ended hnever
  | true =>
      -- The sequence ends at once, and rightly: the periods offer nothing.
      rw [Occurrences.coming_of_ended hnever]
      have hnone := r.flatMap_takeWhile_sublist start
        fun p => !r.deadline?.any (· < p.floor)
      rw [offers_of_neverOccurs hnever] at hnone
      rw [List.eq_nil_of_sublist_nil hnone]
      cases r.count? <;> simp [Occurrences.atMost]

/-- Without an ending the occurrences are all that is offered. -/
theorem toList_occurrences_of_ending_eq_none (h : r.ending = none) :
    (r.occurrences start).toList = r.offers start := by
  have hcount : r.count? = none := by simp [count?, h]
  have hdeadline : r.deadline? = none := by simp [deadline?, h]
  have hall {α : Type} (l : List α) : l.takeWhile (fun _ => true) = l :=
    List.takeWhile_eq_self_iff.mpr fun _ _ => rfl
  rw [toList_occurrences, hcount, hdeadline, ← flatMap_periodsFrom_zero]
  simp only [Option.any_none, Bool.not_false, hall, Occurrences.atMost]

/-- An ending only leaves occurrences out. -/
theorem toList_occurrences_sublist (r : Rule) (start : DateTime) :
    (r.occurrences start).toList.Sublist (r.offers start) := by
  rw [toList_occurrences]
  exact ((Occurrences.sublist_atMost _ _).trans (List.takeWhile_sublist _)).trans
    (r.flatMap_takeWhile_sublist start _)

theorem start_le_of_mem_toList_occurrences {t : DateTime}
    (h : t ∈ (r.occurrences start).toList) : start ≤ t := by
  obtain ⟨k, hk⟩ := mem_offers_iff.mp ((r.toList_occurrences_sublist start).subset h)
  exact start_le_of_mem_offer hk

theorem toList_occurrences_pairwise_lt (r : Rule) (start : DateTime) :
    (r.occurrences start).toList.Pairwise (· < ·) :=
  (r.offers_pairwise_lt start).sublist (r.toList_occurrences_sublist start)

/-- However a rule lists its values, whatever the calls of `next` give is not before the
start, and what a later call gives is later. -/
theorem occurrences_ascend (r : Rule) (start : DateTime) :
    (∀ n t, (r.occurrences start).item n = some t → start ≤ t) ∧
      ∀ m n s t, m < n → (r.occurrences start).item m = some s →
        (r.occurrences start).item n = some t → s < t := by
  simp only [Occurrences.item_eq_getElem?]
  constructor
  · intro n t hn
    exact start_le_of_mem_toList_occurrences (List.mem_of_getElem? hn)
  · intro m n s t hmn hm hn
    obtain ⟨hmlt, rfl⟩ := List.getElem?_eq_some_iff.mp hm
    obtain ⟨hnlt, rfl⟩ := List.getElem?_eq_some_iff.mp hn
    exact List.pairwise_iff_getElem.mp (r.toList_occurrences_pairwise_lt start) m n hmlt
      hnlt hmn

end Rule
end Timetable
