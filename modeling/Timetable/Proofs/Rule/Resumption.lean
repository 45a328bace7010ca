import Timetable.Proofs.Rule.Reach

/-!
# Taking a sequence up again

An occurrence of a rule can stand in for the start: followed from there, the rule goes on as
it would have gone on anyway.  The occurrence lies in a unit of the rule's grid, at a time
and on a day that the rule admits, so whatever the rule leaves to the start is left to it in
the same way (`selects_eq_of_selects`, `admitsTime_eq_of_admitsTime`), and the periods from
there on are the old ones under lower numbers (`mem_wholeOffer_add_iff`).  Only a start on
one of the last days of a month is not stood in for where shorter months move that day
(`followsStartDay`).

What does change is how far single steps lead.  Followed from the occurrence the rule
reaches further, so its sequence is the rest of the first one just if nothing is found where
that one could not reach: `resumed_eq_drop_iff`.
-/

namespace Timetable

open Civil

namespace Rule

variable {r : Rule} {start t u : DateTime} {first d e : Date} {k j : Nat}

/-- Whether a rule falls back on the start's day of the month and, where a month is too
short for it, on the month's last day. -/
def followsStartDay (r : Rule) : Bool :=
  !r.listsDays && (r.frequency = .monthly || r.frequency = .yearly && r.months.isEmpty)

/-! ## What is left to the start -/

/-- The start's own day, in whichever unit it is found again, is the same day to go on
with. -/
private theorem isStartDay_eq_of_isStartDay (hlists : r.listsDays = false)
    (hday : r.followsStartDay = true → first.day ≤ 28) (h : r.isStartDay first e = true)
    (d : Date) : r.isStartDay e d = r.isStartDay first d := by
  have hlength := e.yearMonth.le_length
  simp only [followsStartDay, hlists, Bool.not_false, Bool.true_and] at hday
  unfold isStartDay at h ⊢
  cases hfrequency : r.frequency <;> simp only [hfrequency] at h ⊢
  case weekly =>
    rw [of_decide_eq_true h]
  case monthly =>
    have hle := hday (by simp [hfrequency])
    have hsame : e.day = first.day := by
      rw [of_decide_eq_true h]
      omega
    rw [hsame]
  case yearly =>
    cases hmonths : r.months.isEmpty <;> simp only [hmonths] at h ⊢
    case true =>
      have hle := hday (by simp [hfrequency, hmonths])
      simp only [if_true, Bool.and_eq_true, decide_eq_true_eq] at h
      have hsame : e.day = first.day := by omega
      rw [hsame, h.1]
    case false =>
      rw [if_neg Bool.false_ne_true] at h
      rw [if_neg Bool.false_ne_true, if_neg Bool.false_ne_true, of_decide_eq_true h]

/-- A date that a rule selects selects the same dates as the start. -/
theorem selects_eq_of_selects (hday : r.followsStartDay = true → first.day ≤ 28)
    (h : r.selects first e = true) (d : Date) : r.selects e d = r.selects first d := by
  cases hlists : r.listsDays with
  | true => rw [selects, selects, hlists, if_pos rfl, if_pos rfl]
  | false =>
      rw [selects, hlists, if_neg Bool.false_ne_true, Bool.and_eq_true] at h
      rw [selects, selects, hlists, if_neg Bool.false_ne_true, if_neg Bool.false_ne_true,
        isStartDay_eq_of_isStartDay hlists hday h.2]

/-- A component that a list admits admits the same components as the start's own one. -/
theorem admitsComponent_eq_of_admitsComponent {listed : List Nat} {limits : Bool}
    {own v : Nat} (h : admitsComponent listed limits own v = true) (w : Nat) :
    admitsComponent listed limits v w = admitsComponent listed limits own w := by
  unfold admitsComponent at h ⊢
  cases hlisted : listed.isEmpty with
  | false => rfl
  | true =>
      rw [hlisted, if_pos rfl, Bool.or_eq_true, decide_eq_true_eq] at h
      rcases h with hlimits | hown
      · rw [hlimits, Bool.true_or, Bool.true_or]
      · rw [hown]

/-- A time that a rule admits admits the same times as the start's. -/
theorem admitsTime_eq_of_admitsTime {own v : Time} (h : r.admitsTime own v = true)
    (w : Time) : r.admitsTime v w = r.admitsTime own w := by
  simp only [admitsTime, Bool.and_eq_true, decide_eq_true_eq] at h ⊢
  obtain ⟨⟨⟨hhour, hminute⟩, hsecond⟩, hnano⟩ := h
  rw [admitsComponent_eq_of_admitsComponent hhour,
    admitsComponent_eq_of_admitsComponent hminute,
    admitsComponent_eq_of_admitsComponent hsecond, hnano]

/-- A unit that is not before one inside the calendar begins inside it. -/
theorem beginsInside_of_le (hle : first.number ≤ e.number)
    (h : r.beginsInside first = true) : r.beginsInside e = true := by
  have hfirst := first.daysSince_weekday r.weekStart
  have he := e.daysSince_weekday r.weekStart
  have hlast := e.le_last
  simp only [beginsInside, Bool.or_eq_true] at h ⊢
  rcases h with hfrequency | hweek
  · exact .inl hfrequency
  · right
    obtain ⟨week, hweek⟩ := Option.isSome_iff_exists.mp hweek
    rw [Date.addDays?_eq_some_iff] at hweek
    have hbegin := week.first_le
    obtain ⟨week', hweek'⟩ : ∃ week' : Date,
        week'.number = e.number + -(e.weekday.daysSince r.weekStart : Int) :=
      ⟨⟨_, by omega, by omega⟩, rfl⟩
    rw [Date.addDays?_eq_some_iff.mpr hweek']
    rfl

/-! ## The periods from an occurrence on -/

/-- Followed from what one of its periods offers, a rule has the same periods from there on,
as far as the first sequence reaches. -/
theorem mem_wholeOffer_add_iff (hday : r.followsStartDay = true → start.date.day ≤ 28)
    (ht : t ∈ r.wholeOffer start k) (hle : start ≤ t) :
    u ∈ r.wholeOffer start (k + j) ↔
      u ∈ r.wholeOffer t j ∧ r.reaches start.date u.date = true := by
  obtain ⟨hinside, hreaches, hunit, hselects, htime⟩ := mem_wholeOffer_iff.mp ht
  have hnumber := DateTime.number_le_of_le hle
  have hunits : r.unitNumber u = r.unitNumber t + (j * r.interval : Nat) ↔
      r.unitNumber u = r.unitNumber start + ((k + j) * r.interval : Nat) := by
    rw [hunit, Nat.add_mul]
    omega
  rw [mem_wholeOffer_iff, mem_wholeOffer_iff, hinside, beginsInside_of_le hnumber hinside,
    selects_eq_of_selects hday hselects, admitsTime_eq_of_admitsTime htime, hunits]
  constructor
  · rintro ⟨-, hreach, hrest⟩
    exact ⟨⟨rfl, reaches_mono hnumber (Int.le_refl _) hreach, hrest⟩, hreach⟩
  · rintro ⟨⟨-, -, hrest⟩, hreach⟩
    exact ⟨rfl, hreach, hrest⟩

/-- What set positions take from a period is the same under both of its numbers. -/
theorem select_wholeOffer_add (hday : r.followsStartDay = true → start.date.day ≤ 28)
    (ht : t ∈ r.wholeOffer start k) (hle : start ≤ t) (j : Nat) :
    Position.select r.setPositions (r.wholeOffer start (k + j)) =
      (Position.select r.setPositions (r.wholeOffer t j)).filter
        fun u => r.reaches start.date u.date := by
  apply select_wholeOffer_eq_filter
  · intro u
    exact mem_wholeOffer_add_iff hday ht hle
  · intro u hu v hv
    apply reaches_eq_of_unitNumber_eq
    rw [(mem_wholeOffer_iff.mp hu).2.2.1, (mem_wholeOffer_iff.mp hv).2.2.1]

/-- What the periods offer from an offer on is what they offer when it is the start, as far
as the first start reaches. -/
theorem filter_le_offers (hday : r.followsStartDay = true → start.date.day ≤ 28)
    (ht : t ∈ r.offers start) :
    (r.offers start).filter (t ≤ ·) =
      (r.offers t).filter fun u => r.reaches start.date u.date := by
  apply ((r.offers_pairwise_lt start).filter _).eq_of_mem_iff ((r.offers_pairwise_lt t).filter _)
  intro u
  obtain ⟨k, hk⟩ := mem_offers_iff.mp ht
  have hle := start_le_of_mem_offer hk
  have hwhole := mem_wholeOffer_of_mem_offer hk
  simp only [List.mem_filter, mem_offers_iff, decide_eq_true_eq]
  constructor
  · rintro ⟨⟨i, hi⟩, htu⟩
    -- The periods before that of `t` offer only what is before `t`.
    have hki : k ≤ i := by
      by_contra hik
      exact absurd htu (not_le_of_gt (lt_of_mem_offer (by omega) hi hk))
    obtain ⟨j, rfl⟩ := Nat.exists_eq_add_of_le hki
    rw [offer_eq_select_wholeOffer, select_wholeOffer_add hday hwhole hle, List.mem_filter,
      List.mem_filter] at hi
    obtain ⟨⟨hu, hreach⟩, -⟩ := hi
    refine ⟨⟨j, ?_⟩, hreach⟩
    rw [offer_eq_select_wholeOffer, List.mem_filter]
    exact ⟨hu, decide_eq_true htu⟩
  · rintro ⟨⟨j, hj⟩, hreach⟩
    have htu := start_le_of_mem_offer hj
    refine ⟨⟨k + j, ?_⟩, htu⟩
    rw [offer_eq_select_wholeOffer] at hj
    rw [offer_eq_select_wholeOffer, select_wholeOffer_add hday hwhole hle, List.mem_filter,
      List.mem_filter]
    exact ⟨⟨List.mem_of_mem_filter hj, hreach⟩, decide_eq_true (le_trans hle htu)⟩

/-- Rules that are coarser than a day reach everything, except a monthly one that starts in
the first year of the calendar. -/
theorem reaches_of_unitSeconds?_eq_none (hunit : r.frequency.unitSeconds? = none)
    (hmonthly : r.frequency = .monthly → -9998 ≤ first.year) (d : Date) :
    r.reaches first d = true := by
  obtain ⟨hsecondly, hminutely, hhourly⟩ := Frequency.unitSeconds?_eq_none_iff.mp hunit
  unfold reaches
  cases hfrequency : r.frequency
  case monthly =>
    have hyear := hmonthly hfrequency
    have hlast := d.year_le
    have hle := d.yearMonth.month.number_le
    have hpos := first.yearMonth.month.one_le_number
    have hgreatest : YearMonth.greatestShift = 239976 := rfl
    apply decide_eq_true
    rw [YearMonth.index, YearMonth.index, Date.yearMonth_year, Date.yearMonth_year]
    omega
  all_goals first | rfl | contradiction

/-! ## The sequence from an occurrence on -/

/-- A rule without an ending, followed from one of its occurrences, goes on with the rest of
the sequence, as far as that one reaches.  The two are the same just if nothing is found
where it does not reach; so they are for every start if the rule is not finer than a day and
not monthly in the first year of the calendar, and for every rule from 1970 on. -/
theorem resumed_eq_drop_iff (hending : r.ending = none)
    (hday : r.followsStartDay = true → start.date.day ≤ 28)
    (hk : (r.occurrences start).item k = some t) :
    (r.occurrences start).toList.drop k =
        (r.occurrences t).toList.filter (fun u => r.reaches start.date u.date) ∧
      ((r.occurrences t).toList = (r.occurrences start).toList.drop k ↔
        ∀ u ∈ (r.occurrences t).toList, r.reaches start.date u.date = true) ∧
      (r.frequency.unitSeconds? = none →
        (r.frequency = .monthly → -9998 ≤ start.date.year) →
        (r.occurrences t).toList = (r.occurrences start).toList.drop k) ∧
      (1970 ≤ start.date.year →
        (r.occurrences t).toList = (r.occurrences start).toList.drop k) := by
  rw [Occurrences.item_eq_getElem?, toList_occurrences_of_ending_eq_none hending] at hk
  rw [toList_occurrences_of_ending_eq_none hending,
    toList_occurrences_of_ending_eq_none hending]
  have ht : t ∈ r.offers start := List.mem_of_getElem? hk
  -- The offers ascend, so dropping `k` of them keeps those from `t` on.
  have hrest : (r.offers start).drop k =
      (r.offers t).filter fun u => r.reaches start.date u.date := by
    rw [← Lists.filter_le_eq_drop (r.offers_pairwise_lt start) hk, filter_le_offers hday ht]
  have hiff : r.offers t = (r.offers start).drop k ↔
      ∀ u ∈ r.offers t, r.reaches start.date u.date = true := by
    rw [hrest, eq_comm, List.filter_eq_self]
  refine ⟨hrest, hiff, ?_, ?_⟩
  · intro hunit hmonthly
    rw [hiff]
    intro u _
    exact reaches_of_unitSeconds?_eq_none hunit hmonthly u.date
  · intro hyear
    rw [hiff]
    intro u hu
    obtain ⟨i, hi⟩ := mem_offers_iff.mp ht
    obtain ⟨j, hj⟩ := mem_offers_iff.mp hu
    apply reaches_of_exactFrom (DateTime.exactFrom_of_year hyear)
    exact DateTime.number_le_of_le
      (le_trans (start_le_of_mem_offer hi) (start_le_of_mem_offer hj))

/-- Half past nine on 5 February 2024, and 15 seconds. -/
def februaryMorning : DateTime :=
  (DateTime.ofReading? 2024 2 5 9 30 15 0).get (by decide)

/-- An hourly rule with set positions, taken up at its second occurrence, which is fifteen
minutes after its tick. -/
theorem halfPastNine_resumed :
    halfPastNine.ending = none ∧
      (halfPastNine.followsStartDay = true → morningStart.date.day ≤ 28) ∧
      (halfPastNine.occurrences morningStart).item 1 = some februaryMorning ∧
      1970 ≤ morningStart.date.year ∧
      (halfPastNine.occurrences februaryMorning).toList =
        (halfPastNine.occurrences morningStart).toList.drop 1 := by
  have hday : halfPastNine.followsStartDay = true → morningStart.date.day ≤ 28 := by decide
  have hsecond : (halfPastNine.occurrences morningStart).item 1 = some februaryMorning := by
    decide +kernel
  have hyear : 1970 ≤ morningStart.date.year := by decide
  exact ⟨rfl, hday, hsecond, hyear, (resumed_eq_drop_iff rfl hday hsecond).2.2.2 hyear⟩

/-- An hour of every 2900000 days, which are almost eight millennia. -/
def everyEightMillennia : Rule :=
  { frequency := .hourly, interval := 69600000, ending := none, weekStart := .monday,
    months := [], yearDays := [], monthDays := [], weekdays := [], hours := [],
    minutes := [], seconds := [], setPositions := [], interval_pos := by decide }

/-- The second occurrence of `everyEightMillennia` from the beginning of the calendar. -/
def eightMillenniaOn : DateTime :=
  DateTime.midnightOf ⟨-752059, by decide, by decide⟩

/-- Followed from its second occurrence the rule has a third one, which it does not reach
from the beginning of the calendar. -/
theorem everyEightMillennia_not_resumed :
    everyEightMillennia.Valid ∧ everyEightMillennia.ending = none ∧
      everyEightMillennia.followsStartDay = false ∧
      (everyEightMillennia.occurrences calendarStart).item 1 = some eightMillenniaOn ∧
      (everyEightMillennia.occurrences calendarStart).toList.map (·.date.number) =
        [-3652059, -752059] ∧
      (everyEightMillennia.occurrences eightMillenniaOn).toList.map (·.date.number) =
        [-752059, 2147941] ∧
      (everyEightMillennia.occurrences eightMillenniaOn).toList ≠
        (everyEightMillennia.occurrences calendarStart).toList.drop 1 := by
  have hfirst : (everyEightMillennia.occurrences calendarStart).toList.map (·.date.number) =
      [-3652059, -752059] := by decide +kernel
  have hsecond : (everyEightMillennia.occurrences eightMillenniaOn).toList.map
      (·.date.number) = [-752059, 2147941] := by decide +kernel
  refine ⟨by decide, rfl, rfl, by decide +kernel, hfirst, hsecond, ?_⟩
  intro heq
  rw [heq, List.map_drop, hfirst] at hsecond
  exact absurd hsecond (by decide)

end Rule
end Timetable
