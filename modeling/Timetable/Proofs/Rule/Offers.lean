import Timetable.Proofs.Rule.Position
import Timetable.Proofs.Rule.Spans
import Timetable.Proofs.Rule.Ticks

/-!
# What the periods of a rule offer

`Rule.offer` is what a period offers to the sequence of a rule's occurrences: its
candidates, or nothing outside the calendar.  Here the two ways of evaluating a period come
together; `Chronological` says what they have in common.

* What one period offers ascends and does not lie before the start.
* Everything that a later period offers comes later: `lt_of_mem_offer`.
* The periods that are passed over offer nothing: `offer_eq_nil_of_lt_following`.
* If a rule is said never to occur, no period offers anything: `offer_of_neverOccurs`.
-/

namespace Timetable

open Civil

namespace Rule

variable {r : Rule} {start : DateTime} {k j : Nat} {p q : Period}

/-- What a period offers. -/
def offer (r : Rule) (start : DateTime) (k : Nat) : List DateTime :=
  ((r.period? start k).map Period.candidates).getD []

/-! ## Whole periods -/

/-- What numbered periods have in common, whatever their frequency: they follow each other
in time, they end where the calendar ends, and what is passed over is empty. -/
structure Chronological (evaluate? : Nat → Option Period) : Prop where
  eq_none_of_le : ∀ {k j}, evaluate? k = none → k ≤ j → evaluate? j = none
  candidates_ascend : ∀ {k p}, evaluate? k = some p → p.candidates.Pairwise (· < ·)
  lt_of_mem : ∀ {k j p q}, k < j → evaluate? k = some p → evaluate? j = some q →
    ∀ {a b}, a ∈ p.candidates → b ∈ q.candidates → a < b
  floor_lt_floor : ∀ {k j p q}, k < j → evaluate? k = some p → evaluate? j = some q →
    p.floor < q.floor
  candidates_eq_nil : ∀ {k j p q}, evaluate? k = some p → k < j → j < p.following →
    evaluate? j = some q → q.candidates = []

theorem chronological_tickPeriod? {unit : Nat} (hunit : r.frequency.unitSeconds? = some unit)
    (start : DateTime) : Chronological (r.tickPeriod? start (unit * r.interval)) where
  eq_none_of_le := tickPeriod?_eq_none_of_le
  candidates_ascend h := by
    obtain ⟨tick, htick, -⟩ := tickPeriod?_cases h
    rw [candidates_of_tickPeriod? h htick]
    split
    · exact r.datetimesOn_ascend tick.time tick.date
    · exact List.Pairwise.nil
  lt_of_mem hkj hp hq _ _ ha hb := lt_of_mem_tickPeriod? hunit hkj hp hq ha hb
  floor_lt_floor :=
    floor_lt_floor_of_tickPeriod? (Nat.mul_pos (unitSeconds_pos hunit) r.interval_pos)
  candidates_eq_nil := candidates_eq_nil_of_lt_tickPeriod?_following

theorem chronological_spanPeriod? (r : Rule) (start : DateTime) :
    Chronological (r.spanPeriod? start) where
  eq_none_of_le := spanPeriod?_eq_none_of_le
  candidates_ascend := candidates_ascend_of_spanPeriod?
  lt_of_mem hkj hp hq _ _ ha hb := lt_of_mem_spanPeriod? hkj hp hq ha hb
  floor_lt_floor := floor_lt_floor_of_spanPeriod?
  candidates_eq_nil := candidates_eq_nil_of_lt_spanPeriod?_following

theorem chronological_wholePeriod? (r : Rule) (start : DateTime) :
    Chronological (r.wholePeriod? start) := by
  cases hunit : r.frequency.unitSeconds? with
  | none =>
      have h : r.wholePeriod? start = r.spanPeriod? start := by
        funext k
        rw [wholePeriod?, hunit]
      rw [h]
      exact r.chronological_spanPeriod? start
  | some unit =>
      have h : r.wholePeriod? start = r.tickPeriod? start (unit * r.interval) := by
        funext k
        rw [wholePeriod?, hunit]
      rw [h]
      exact chronological_tickPeriod? hunit start

/-! ## Periods with set positions and the start cut -/

theorem period?_cases (h : r.period? start k = some p) :
    ∃ whole, r.wholePeriod? start k = some whole ∧ p.floor = whole.floor ∧
      p.following = whole.following ∧
      p.candidates =
        (Position.select r.setPositions whole.candidates).filter (start ≤ ·) := by
  simp only [period?, Option.map_eq_some_iff] at h
  obtain ⟨whole, hwhole, rfl⟩ := h
  exact ⟨whole, hwhole, rfl, rfl, rfl⟩

theorem period?_eq_none_iff :
    r.period? start k = none ↔ r.wholePeriod? start k = none := by
  simp [period?]

theorem candidates_sublist (r : Rule) (start : DateTime) (whole : Period) :
    ((Position.select r.setPositions whole.candidates).filter (start ≤ ·)).Sublist
      whole.candidates :=
  List.filter_sublist.trans (Position.select_sublist _ _)

theorem offer_of_period? (h : r.period? start k = some p) :
    r.offer start k = p.candidates := by
  simp [offer, h]

theorem offer_eq_nil_of_period?_eq_none (h : r.period? start k = none) :
    r.offer start k = [] := by
  simp [offer, h]

/-- Whatever is offered is offered by a period inside the calendar. -/
theorem exists_period?_of_mem_offer {t : DateTime} (h : t ∈ r.offer start k) :
    ∃ p, r.period? start k = some p ∧ t ∈ p.candidates := by
  cases hperiod : r.period? start k with
  | none => simp [offer, hperiod] at h
  | some p =>
      rw [offer_of_period? hperiod] at h
      exact ⟨p, rfl, h⟩

theorem exists_wholePeriod?_of_mem_offer {t : DateTime} (h : t ∈ r.offer start k) :
    ∃ whole, r.wholePeriod? start k = some whole ∧ t ∈ whole.candidates := by
  obtain ⟨p, hp, ht⟩ := exists_period?_of_mem_offer h
  obtain ⟨whole, hwhole, -, -, hcandidates⟩ := period?_cases hp
  rw [hcandidates] at ht
  exact ⟨whole, hwhole, (candidates_sublist r start whole).subset ht⟩

theorem start_le_of_mem_offer {t : DateTime} (h : t ∈ r.offer start k) : start ≤ t := by
  obtain ⟨p, hp, ht⟩ := exists_period?_of_mem_offer h
  obtain ⟨whole, -, -, -, hcandidates⟩ := period?_cases hp
  rw [hcandidates, List.mem_filter] at ht
  exact of_decide_eq_true ht.2

theorem offer_ascends (r : Rule) (start : DateTime) (k : Nat) :
    (r.offer start k).Pairwise (· < ·) := by
  cases hperiod : r.period? start k with
  | none =>
      rw [offer_eq_nil_of_period?_eq_none hperiod]
      exact List.Pairwise.nil
  | some p =>
      obtain ⟨whole, hwhole, -, -, hcandidates⟩ := period?_cases hperiod
      rw [offer_of_period? hperiod, hcandidates]
      exact ((r.chronological_wholePeriod? start).candidates_ascend hwhole).sublist
        (candidates_sublist r start whole)

theorem lt_of_mem_offer (hkj : k < j) {a b : DateTime} (ha : a ∈ r.offer start k)
    (hb : b ∈ r.offer start j) : a < b := by
  obtain ⟨whole, hwhole, ha⟩ := exists_wholePeriod?_of_mem_offer ha
  obtain ⟨whole', hwhole', hb⟩ := exists_wholePeriod?_of_mem_offer hb
  exact (r.chronological_wholePeriod? start).lt_of_mem hkj hwhole hwhole' ha hb

/-- A later period has a later floor. -/
theorem floor_lt_floor_of_period? (hkj : k < j) (hp : r.period? start k = some p)
    (hq : r.period? start j = some q) : p.floor < q.floor := by
  obtain ⟨whole, hwhole, hfloor, -⟩ := period?_cases hp
  obtain ⟨whole', hwhole', hfloor', -⟩ := period?_cases hq
  rw [hfloor, hfloor']
  exact (r.chronological_wholePeriod? start).floor_lt_floor hkj hwhole hwhole'

/-- What the periods offer in their order ascends. -/
theorem offers_ascend (r : Rule) (start : DateTime) {ks : List Nat}
    (h : ks.Pairwise (· < ·)) : (ks.flatMap (r.offer start)).Pairwise (· < ·) := by
  rw [List.pairwise_flatMap]
  constructor
  · intro k _
    exact r.offer_ascends start k
  · apply h.imp
    intro k j hkj a ha b hb
    exact lt_of_mem_offer hkj ha hb

theorem offer_eq_nil_of_le (hk : r.period? start k = none) (hkj : k ≤ j) :
    r.offer start j = [] := by
  rw [period?_eq_none_iff] at hk
  exact offer_eq_nil_of_period?_eq_none
    (period?_eq_none_iff.mpr ((r.chronological_wholePeriod? start).eq_none_of_le hk hkj))

theorem offer_eq_nil_of_lt_following (hp : r.period? start k = some p) (hkj : k < j)
    (hj : j < p.following) : r.offer start j = [] := by
  obtain ⟨whole, hwhole, -, hfollowing, -⟩ := period?_cases hp
  rw [List.eq_nil_iff_forall_not_mem]
  intro t ht
  obtain ⟨whole', hwhole', ht⟩ := exists_wholePeriod?_of_mem_offer ht
  rw [(r.chronological_wholePeriod? start).candidates_eq_nil hwhole hkj (hfollowing ▸ hj)
    hwhole'] at ht
  simp at ht

/-! ## Rules that never occur -/

/-- A rule that lists no second but 60 has no datetimes on any date. -/
private theorem datetimesOn_eq_nil_of_seconds {own : Time} {date : Date}
    (hne : r.seconds ≠ []) (hall : ∀ s ∈ r.seconds, 60 ≤ s)
    (hfrequency : r.frequency ≠ .secondly) : r.datetimesOn own date = [] := by
  rw [List.eq_nil_iff_forall_not_mem]
  intro t ht
  obtain ⟨-, hsecond, -⟩ := mem_datetimesOn_iff.mp ht
  obtain ⟨-, -, hmem⟩ := (r.proper_expansion own).mem_times_iff_components.mp hsecond
  have hexpand : t.time.secondOfDay % 60 ∈ Clock.expand r.seconds 60 own.second := by
    unfold expansion at hmem
    cases h : r.frequency <;> simp only [h] at hmem hfrequency <;>
      first | exact hmem | exact absurd rfl hfrequency
  rcases Clock.mem_expand_iff.mp hexpand with ⟨hnil, -⟩ | ⟨-, hlt, hlisted⟩
  · exact hne hnil
  · have hle := hall _ hlisted
    omega

private theorem keepsTick_eq_false_of_seconds {tick : DateTime} (hne : r.seconds ≠ [])
    (hall : ∀ s ∈ r.seconds, 60 ≤ s) (hfrequency : r.frequency = .secondly) :
    r.keepsTick start tick = false := by
  by_contra hkept
  have hmem := (keepsTick_iff.mp (eq_true_of_ne_false hkept)).2
  obtain ⟨-, -, hsecond⟩ := (r.proper_tickTimes start.time).mem_times_iff_components.mp hmem
  simp only [tickTimes, hfrequency, Clock.mem_limit_iff] at hsecond
  rcases hsecond with ⟨hlt, hnil | hlisted⟩
  · exact hne hnil
  · have hle := hall _ hlisted
    omega

/-- A rule that lists no second but 60 has no candidates in any period. -/
private theorem candidates_eq_nil_of_seconds (hne : r.seconds ≠ [])
    (hall : ∀ s ∈ r.seconds, 60 ≤ s) (h : r.wholePeriod? start k = some p) :
    p.candidates = [] := by
  unfold wholePeriod? at h
  split at h
  next =>
    obtain ⟨tick, htick, -⟩ := tickPeriod?_cases h
    rw [candidates_of_tickPeriod? h htick]
    by_cases hfrequency : r.frequency = .secondly
    · rw [keepsTick_eq_false_of_seconds hne hall hfrequency]
      rfl
    · rw [datetimesOn_eq_nil_of_seconds hne hall hfrequency, ite_self]
  next hunit =>
    obtain ⟨first, days, -, -, hcandidates, -⟩ := spanPeriod?_cases h
    have hfrequency := (Frequency.unitSeconds?_eq_none_iff.mp hunit).1
    rw [hcandidates, List.flatMap_eq_nil_iff]
    intro date _
    exact datetimesOn_eq_nil_of_seconds hne hall hfrequency

/-- If a rule is said never to occur, none of its periods offers anything. -/
theorem offer_of_neverOccurs (h : r.neverOccurs start.time = true) (k : Nat) :
    r.offer start k = [] := by
  rw [List.eq_nil_iff_forall_not_mem]
  intro t ht
  obtain ⟨whole, hwhole, ht⟩ := exists_wholePeriod?_of_mem_offer ht
  have hnone : whole.candidates = [] := by
    rw [neverOccurs, Bool.or_eq_true] at h
    rcases h with hseconds | hticks
    · -- No second is listed but 60, which no minute has.
      simp only [Bool.and_eq_true, Bool.not_eq_true', List.isEmpty_eq_false_iff,
        List.all_eq_true, decide_eq_true_eq] at hseconds
      exact candidates_eq_nil_of_seconds hseconds.1 hseconds.2 hwhole
    · -- No tick comes to a time of day that counts.
      cases hunit : r.frequency.unitSeconds? with
      | none =>
          rw [hunit, Option.any_none] at hticks
          contradiction
      | some unit =>
          rw [hunit, Option.any_some, Bool.not_eq_true'] at hticks
          rw [wholePeriod?, hunit] at hwhole
          obtain ⟨tick, htick, -⟩ := tickPeriod?_cases hwhole
          rw [candidates_of_tickPeriod? hwhole htick,
            keepsTick_eq_false_of_not_reachesTickTime hticks htick]
          rfl
  rw [hnone] at ht
  simp at ht

end Rule
end Timetable
