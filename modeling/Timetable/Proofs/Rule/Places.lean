import Timetable.Proofs.Rule.Units

/-!
# What set positions take

Set positions are applied to one evaluated period after the other.  A period holds every
datetime of its unit that the rule selects, whether it lies before the start or not
(`Rule.HoldsUnit`).  The set positions take those whose place in this list they name,
counted from the front or from the back, and then what lies before the start is cut off
(`Position.Takes`).  So the places are those in the whole unit, and a datetime before the
start still has one.

`Rule.evaluated` are the numbers of the periods that are evaluated.  The occurrences of a rule
without an ending are what the set positions take from these, one after the other:
`occurrences_eq_flatMap_taken`.
-/

namespace Timetable

open Civil

namespace Position

/-- Whether `taken` is what signed numbers take from a list of datetimes that ascends: in
ascending order and each once, the members that do not lie before the start and whose place
is among the numbers, be it counted from 1 at the front or from -1 at the back. -/
structure Takes (names : List Int) (start : DateTime) (members taken : List DateTime) :
    Prop where
  ascends : taken.Pairwise (· < ·)
  mem_iff : ∀ t, t ∈ taken ↔ start ≤ t ∧ ∃ i : Nat, 1 ≤ i ∧ members[i - 1]? = some t ∧
    ((i : Int) ∈ names ∨ (i : Int) - members.length - 1 ∈ names)

variable {names : List Int} {start : DateTime} {members : List DateTime}

/-- A member of a list is selected if one of its two places is among the numbers. -/
theorem mem_select_iff_of_ne_nil {α : Type} {members : List α} {a : α} (hnames : names ≠ []) :
    a ∈ select names members ↔ ∃ i : Nat, 1 ≤ i ∧ members[i - 1]? = some a ∧
      ((i : Int) ∈ names ∨ (i : Int) - members.length - 1 ∈ names) := by
  have hplace {i : Nat} (hi : i < members.length) :
      (∃ name ∈ names, (ofIndex (i + 1) members.length).isNamedBy name = true) ↔
        ((i + 1 : Nat) : Int) ∈ names ∨ ((i + 1 : Nat) : Int) - members.length - 1 ∈ names := by
    simp only [isNamedBy_ofIndex_iff (Nat.succ_le_of_lt hi)]
    constructor
    · rintro ⟨name, hname, rfl | rfl⟩
      · exact .inl hname
      · exact .inr hname
    · rintro (hname | hname)
      · exact ⟨_, hname, .inl rfl⟩
      · exact ⟨_, hname, .inr rfl⟩
  simp only [mem_select_iff, hnames, false_or]
  constructor
  · rintro ⟨i, hi, hname⟩
    obtain ⟨hlt, -⟩ := List.getElem?_eq_some_iff.mp hi
    exact ⟨i + 1, Nat.le_add_left 1 i, hi, (hplace hlt).mp hname⟩
  · rintro ⟨i, hpos, hi, hname⟩
    obtain ⟨i, rfl⟩ := Nat.exists_eq_add_of_le' hpos
    obtain ⟨hlt, -⟩ := List.getElem?_eq_some_iff.mp hi
    exact ⟨i, hi, (hplace hlt).mpr hname⟩

theorem takes_select (hnames : names ≠ []) (hmembers : members.Pairwise (· < ·)) :
    Takes names start members ((select names members).filter (start ≤ ·)) where
  ascends := (hmembers.sublist (select_sublist names members)).filter _
  mem_iff t := by
    rw [List.mem_filter, decide_eq_true_eq, mem_select_iff_of_ne_nil hnames, and_comm]

end Position

namespace Rule

variable {r : Rule} {start t : DateTime} {k : Nat} {p : Period}

/-! ## The periods that are evaluated -/

/-- The numbers of the periods that are evaluated from one on. -/
def evaluatedFrom (r : Rule) (start : DateTime) (k : Nat) : List Nat :=
  match _hperiod : r.period? start k with
  | none => []
  | some p => k :: r.evaluatedFrom start p.following
termination_by periodLimit - k
decreasing_by
  have hfollowing := lt_following_of_period? _hperiod
  have hlimit := lt_periodLimit_of_period? _hperiod
  omega

/-- The numbers of the periods that are evaluated for a start. -/
def evaluated (r : Rule) (start : DateTime) : List Nat :=
  r.evaluatedFrom start 0

theorem evaluatedFrom_of_eq_none (h : r.period? start k = none) :
    r.evaluatedFrom start k = [] := by
  rw [evaluatedFrom]
  split
  · rfl
  next hsome =>
    rw [h] at hsome
    simp at hsome

theorem evaluatedFrom_of_eq_some (h : r.period? start k = some p) :
    r.evaluatedFrom start k = k :: r.evaluatedFrom start p.following := by
  rw [evaluatedFrom]
  split
  next hnone =>
    rw [h] at hnone
    simp at hnone
  next hsome =>
    rw [h, Option.some.injEq] at hsome
    rw [hsome]

/-- The periods that are evaluated lie inside the calendar, and none before the first. -/
theorem le_and_isSome_of_mem_evaluatedFrom {j : Nat} (h : j ∈ r.evaluatedFrom start k) :
    k ≤ j ∧ (r.period? start j).isSome := by
  induction k using evaluatedFrom.induct r start with
  | case1 k hnone => simp [evaluatedFrom_of_eq_none hnone] at h
  | case2 k p hsome ih =>
      rw [evaluatedFrom_of_eq_some hsome, List.mem_cons] at h
      rcases h with rfl | h
      · exact ⟨Nat.le_refl j, by rw [hsome]; rfl⟩
      · have hlt := lt_following_of_period? hsome
        obtain ⟨hle, hinside⟩ := ih h
        exact ⟨by omega, hinside⟩

/-- No period is evaluated twice, and none after a later one. -/
theorem evaluatedFrom_pairwise_lt (r : Rule) (start : DateTime) (k : Nat) :
    (r.evaluatedFrom start k).Pairwise (· < ·) := by
  induction k using evaluatedFrom.induct r start with
  | case1 k hnone =>
      rw [evaluatedFrom_of_eq_none hnone]
      exact List.Pairwise.nil
  | case2 k p hsome ih =>
      rw [evaluatedFrom_of_eq_some hsome, List.pairwise_cons]
      refine ⟨?_, ih⟩
      intro j hj
      have hlt := lt_following_of_period? hsome
      have hle := (le_and_isSome_of_mem_evaluatedFrom hj).1
      omega

/-- The evaluated periods offer all that is offered. -/
theorem flatMap_evaluatedFrom (r : Rule) (start : DateTime) (k : Nat) :
    (r.evaluatedFrom start k).flatMap (r.offer start) =
      (r.periodsFrom start k).flatMap Period.candidates := by
  induction k using evaluatedFrom.induct r start with
  | case1 k hnone => rw [evaluatedFrom_of_eq_none hnone, periodsFrom_of_eq_none hnone]; rfl
  | case2 k p hsome ih =>
      rw [evaluatedFrom_of_eq_some hsome, periodsFrom_of_eq_some hsome, List.flatMap_cons,
        List.flatMap_cons, ih, offer_of_period? hsome]

/-- A period that is not evaluated is passed over or lies outside the calendar, so it offers
nothing. -/
theorem offer_eq_nil_of_not_mem_evaluatedFrom {j : Nat} (hle : k ≤ j)
    (h : j ∉ r.evaluatedFrom start k) : r.offer start j = [] := by
  induction k using evaluatedFrom.induct r start with
  | case1 k hnone => exact offer_eq_nil_of_le hnone hle
  | case2 k p hsome ih =>
      rw [evaluatedFrom_of_eq_some hsome, List.mem_cons, not_or] at h
      obtain ⟨hne, hlater⟩ := h
      by_cases hj : j < p.following
      · exact offer_eq_nil_of_lt_following hsome (by omega) hj
      · exact ih (by omega) hlater

/-! ## What an evaluated period holds -/

/-- Whether a list holds period number `k`: in ascending order and each once, all datetimes of
the unit that is `k` intervals after that of the start, on selected dates and at admitted
times. -/
structure HoldsUnit (r : Rule) (start : DateTime) (k : Nat) (members : List DateTime) :
    Prop where
  ascends : members.Pairwise (· < ·)
  mem_iff : ∀ t, t ∈ members ↔ r.unitNumber t = r.unitNumber start + (k * r.interval : Nat) ∧
    r.selects start.date t.date = true ∧ r.admitsTime start.time t.time = true

/-- Nothing of the unit of an evaluated period is missing. -/
theorem holdsUnit_wholeOffer (h : (r.period? start k).isSome) :
    r.HoldsUnit start k (r.wholeOffer start k) where
  ascends := r.wholeOffer_ascends start k
  mem_iff t := by
    rw [period?, Option.isSome_map] at h
    rw [mem_wholeOffer_iff]
    constructor
    · rintro ⟨-, -, hmem⟩
      exact hmem
    · intro hmem
      obtain ⟨hinside, hreaches⟩ := (isSome_wholePeriod?_iff hmem.1).mp h
      exact ⟨hinside, hreaches, hmem⟩

/-! ## Set positions and the sequence -/

/-- The same rule without its set positions. -/
def withoutPositions (r : Rule) : Rule :=
  { r with setPositions := [] }

/-- A period offers some of what it would offer without set positions. -/
theorem offer_sublist_withoutPositions (r : Rule) (start : DateTime) (k : Nat) :
    (r.offer start k).Sublist (r.withoutPositions.offer start k) := by
  have hwhole : r.withoutPositions.offer start k =
      (r.wholeOffer start k).filter (start ≤ ·) := by
    rw [offer_eq_select_wholeOffer]
    rfl
  rw [offer_eq_select_wholeOffer, hwhole]
  exact (Position.select_sublist _ _).filter _

/-- The occurrences of a rule with set positions and without an ending are what the positions
take from the evaluated periods, in the order of the periods.  Each of these holds its whole
unit, and no other period has anything to offer.  The rule without the positions has all the
occurrences, and others between them. -/
theorem occurrences_eq_flatMap_taken (hending : r.ending = none)
    (hpositions : r.setPositions ≠ []) (start : DateTime) :
    (r.occurrences start).toList = (r.evaluated start).flatMap (r.offer start) ∧
      (r.evaluated start).Pairwise (· < ·) ∧
      (∀ k ∈ r.evaluated start, ∃ members, r.HoldsUnit start k members ∧
        Position.Takes r.setPositions start members (r.offer start k)) ∧
      (∀ k, k ∉ r.evaluated start → r.offer start k = []) ∧
      (r.occurrences start).toList.Pairwise (· < ·) ∧
      (r.occurrences start).toList.Sublist (r.withoutPositions.occurrences start).toList := by
  refine ⟨?_, r.evaluatedFrom_pairwise_lt start 0, ?_,
    fun k hk => offer_eq_nil_of_not_mem_evaluatedFrom (Nat.zero_le k) hk,
    r.toList_occurrences_pairwise_lt start, ?_⟩
  · rw [toList_occurrences_of_ending_eq_none hending, ← flatMap_periodsFrom_zero, evaluated,
      flatMap_evaluatedFrom]
  · intro k hk
    have hinside := (le_and_isSome_of_mem_evaluatedFrom hk).2
    refine ⟨r.wholeOffer start k, holdsUnit_wholeOffer hinside, ?_⟩
    rw [offer_eq_select_wholeOffer]
    exact Position.takes_select hpositions (r.wholeOffer_ascends start k)
  · rw [toList_occurrences_of_ending_eq_none hending,
      toList_occurrences_of_ending_eq_none (r := r.withoutPositions) hending]
    exact List.Sublist.flatMap_right _ fun k _ => r.offer_sublist_withoutPositions start k

/-- The first and the last weekday of every month that is neither a Saturday nor a Sunday.  No
month has forty of them, and the last one is asked for twice. -/
def monthEnds : Rule :=
  { frequency := .monthly, interval := 1, ending := none, weekStart := .monday, months := [],
    yearDays := [], monthDays := [],
    weekdays := [⟨.friday, none⟩, ⟨.monday, none⟩, ⟨.tuesday, none⟩, ⟨.wednesday, none⟩,
      ⟨.thursday, none⟩],
    hours := [], minutes := [], seconds := [], setPositions := [-1, 40, 1, -1],
    interval_pos := Nat.one_pos }

/-- A Wednesday in the middle of January 2024. -/
def midJanuary : DateTime :=
  (DateTime.ofReading? 2024 1 17 10 0 0 0).get (by decide)

/-- The first weekday of January lies before the start, and the second one does not take its
place.  What comes are 31 January, 1 February and 29 February. -/
theorem monthEnds_from_midJanuary :
    monthEnds.ending = none ∧ monthEnds.setPositions ≠ [] ∧
      (List.range 3).map (fun n =>
          ((monthEnds.occurrences midJanuary).item n).map (·.date.number)) =
        [some 739281, some 739282, some 739310] ∧
      0 ∈ monthEnds.evaluated midJanuary ∧
      (∃ members, monthEnds.HoldsUnit midJanuary 0 members ∧
        Position.Takes monthEnds.setPositions midJanuary members
          (monthEnds.offer midJanuary 0)) ∧
      (monthEnds.occurrences midJanuary).toList.Sublist
        (monthEnds.withoutPositions.occurrences midJanuary).toList := by
  have hpositions : monthEnds.setPositions ≠ [] := by decide
  have hzero : 0 ∈ monthEnds.evaluated midJanuary := by
    obtain ⟨p, hp⟩ := Option.isSome_iff_exists.mp
      (show (monthEnds.period? midJanuary 0).isSome = true by decide +kernel)
    rw [evaluated, evaluatedFrom_of_eq_some hp]
    exact List.mem_cons_self
  obtain ⟨-, -, htaken, -, -, hsublist⟩ :=
    occurrences_eq_flatMap_taken (r := monthEnds) rfl hpositions midJanuary
  exact ⟨rfl, hpositions, by decide +kernel, hzero, htaken 0 hzero, hsublist⟩

end Rule
end Timetable
