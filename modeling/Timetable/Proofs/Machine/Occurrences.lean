import Timetable.Proofs.Machine.Spans

/-!
# Occurrences with machine numbers

`State` is a place in the sequence of a rule's occurrences that is kept with machine numbers.
`State.next` gives the next occurrence as `Occurrences.next` does, and for a rule that was read
or built it never breaks down: `evaluation_never_breaks_down`.

`State.place` forgets the words.  One call of `next` leads from a sound state to a sound one and
gives what it gives at the place; all calls follow by induction.
-/

namespace Timetable
namespace Machine

open Civil

/-! ## All frequencies -/

variable {r : Rule} {start : DateTime} {k : Nat}

theorem evaluates_wholeStep (hvalid : r.Valid) (hranges : r.WithinRanges) (start : DateTime)
    (k : Nat) : Evaluates (r.wholePeriod? start) k (wholeStep r start k) := by
  have htick {unit : Nat} (hunit : r.frequency.unitSeconds? = some unit) :
      Evaluates (r.wholePeriod? start) k (tickStep r start k) := by
    have hwhole : r.wholePeriod? start = r.tickPeriod? start (unit * r.interval) := by
      funext j
      rw [Rule.wholePeriod?, hunit]
    rw [hwhole]
    exact evaluates_tickStep hvalid hranges hunit start k
  have hspan (hunit : r.frequency.unitSeconds? = none) {x : Machine (Option Step)}
      (h : Evaluates (r.spanPeriod? start) k x) : Evaluates (r.wholePeriod? start) k x := by
    have hwhole : r.wholePeriod? start = r.spanPeriod? start := by
      funext j
      rw [Rule.wholePeriod?, hunit]
    rwa [hwhole]
  unfold wholeStep
  split
  next h => exact htick (Frequency.unitSeconds?_eq_some_iff.mpr (.inl ⟨h, rfl⟩))
  next h => exact htick (Frequency.unitSeconds?_eq_some_iff.mpr (.inr (.inl ⟨h, rfl⟩)))
  next h => exact htick (Frequency.unitSeconds?_eq_some_iff.mpr (.inr (.inr ⟨h, rfl⟩)))
  next h => exact hspan (by rw [h]; rfl) (evaluates_dailyStep hvalid hranges h start k)
  next h => exact hspan (by rw [h]; rfl) (evaluates_weeklyStep hvalid hranges h start k)
  next h => exact hspan (by rw [h]; rfl) (evaluates_monthlyStep hvalid hranges h start k)
  next h => exact hspan (by rw [h]; rfl) (evaluates_yearlyStep hranges h start k)

/-- The evaluation of a period does not break down.  What it gives is the period, or it stops
where no more candidates follow. -/
theorem step_cases (hvalid : r.Valid) (hranges : r.WithinRanges) (start : DateTime) (k : Nat) :
    (∃ p, r.period? start k = some p ∧
        step r start k = pure (some ⟨p.floor, p.candidates, p.following⟩)) ∨
      step r start k = pure none ∧ (r.period? start k = none ∨
        ∃ p, r.period? start k = some p ∧ p.candidates = [] ∧
          r.period? start p.following = none) := by
  have heval := evaluates_wholeStep hvalid hranges start k
  unfold step
  generalize wholeStep r start k = whole at heval
  cases heval with
  | @period p candidates hperiod hcandidates =>
      have hoffer : r.wholeOffer start k = p.candidates := by
        rw [Rule.wholeOffer, hperiod]
        rfl
      have hascends := r.wholeOffer_ascends start k
      have hlength := length_wholeOffer_le r start k
      rw [hoffer] at hascends hlength
      -- The evaluator gathers candidates in any order; sorted they are the period's.
      have hascending : DateTime.ascending candidates = p.candidates :=
        (DateTime.ascending_pairwise_lt candidates).eq_of_mem_iff hascends fun t =>
          DateTime.mem_ascending.trans (hcandidates t)
      left
      refine ⟨_, by rw [Rule.period?, hperiod, Option.map_some], ?_⟩
      rw [pure_bind]
      dsimp only
      rw [selectPositions_eq hascending hlength hranges.setPositions, pure_bind]
  | outside hperiod =>
      right
      exact ⟨rfl, .inl (Rule.period?_eq_none_iff.mpr hperiod)⟩
  | @lastEmpty p hperiod hempty hfollowing =>
      right
      have hselected : r.period? start k = some { p with candidates := [] } := by
        rw [Rule.period?, hperiod, Option.map_some, hempty, Position.select_nil, List.filter_nil]
      exact ⟨rfl, .inr ⟨_, hselected, rfl, Rule.period?_eq_none_iff.mpr hfollowing⟩⟩

/-! ## Places in the sequence -/

/-- A place in the sequence of a rule's occurrences. -/
structure State where
  rule : Rule
  start : DateTime
  /-- The number of the period to evaluate next. -/
  period : Int
  /-- The candidates of the last evaluated period that are still to come. -/
  pending : List DateTime
  /-- How many occurrences were given, if the rule has a count. -/
  emitted : Int
  ended : Bool

/-- The occurrences of a rule at or after a start. -/
def occurrences (r : Rule) (start : DateTime) : Machine State := do
  let ended ← neverMatches r start.time
  return ⟨r, start, 0, [], 0, ended⟩

namespace State

/-- The state at the end of the sequence. -/
def finish (s : State) : State :=
  { s with pending := [], ended := true }

/-- Whether a datetime lies past the rule's deadline. -/
def isTooLate (s : State) (t : DateTime) : Bool :=
  s.rule.deadline?.any (· < t)

/-- How many occurrences were given after one more. -/
def emittedOnceMore (s : State) : Machine Int :=
  if s.rule.count?.isSome then Word.unsigned32.add s.emitted 1 else return s.emitted

/-- Give the first pending candidate; evaluate periods as long as there is none. -/
def advance (s : State) : Machine (Option DateTime × State) :=
  match s.pending with
  | t :: rest =>
      if s.isTooLate t then
        return (none, s.finish)
      else do
        let emitted ← s.emittedOnceMore
        return (some t, { s with pending := rest, emitted })
  | [] =>
      match _hstep : step s.rule s.start s.period with
      | .error breakdown => .error breakdown
      | .ok none => return (none, s.finish)
      | .ok (some p) =>
          if s.isTooLate p.floor then
            return (none, s.finish)
          else
            advance { s with pending := p.candidates, period := p.following }
termination_by (Word.signed64.greatest - s.period).toNat
decreasing_by
  obtain ⟨hlater, hholds⟩ := leads_step p _hstep
  show (Word.signed64.greatest - p.following).toNat < (Word.signed64.greatest - s.period).toNat
  omega

/-- The next occurrence, if there is one, and the state after it. -/
def next (s : State) : Machine (Option DateTime × State) :=
  if s.ended then
    return (none, s)
  else if s.rule.count?.any fun (n : Nat) => n ≤ s.emitted then
    return (none, s.finish)
  else
    s.advance

/-- The state after some calls of `next`. -/
def after (s : State) : Nat → Machine State
  | 0 => return s
  | n + 1 => do
      let (_, rest) ← s.next
      rest.after n

/-- The place in the sequence, without words. -/
def place (s : State) : Occurrences :=
  ⟨s.rule, s.start, s.period.toNat, s.pending, s.rule.count?.map (· - s.emitted.toNat), s.ended⟩

/-- What holds of every state that is reached. -/
structure Sound (s : State) : Prop where
  valid : s.rule.Valid
  ranges : s.rule.WithinRanges
  period_nonneg : 0 ≤ s.period
  emitted_nonneg : 0 ≤ s.emitted
  emitted_le : ∀ n ∈ s.rule.count?, s.emitted ≤ n

variable {s : State} {t : DateTime} {rest : List DateTime}

theorem advance_of_cons (h : s.pending = t :: rest) :
    s.advance = if s.isTooLate t then pure (none, s.finish) else do
      let emitted ← s.emittedOnceMore
      return (some t, { s with pending := rest, emitted }) := by
  unfold advance
  rw [h]

theorem advance_of_none (hpending : s.pending = [])
    (hstep : step s.rule s.start s.period = pure none) :
    s.advance = pure (none, s.finish) := by
  unfold advance
  rw [hpending]
  dsimp only
  split
  next breakdown h => cases hstep.symm.trans h
  next => rfl
  next p h => cases hstep.symm.trans h

theorem advance_of_some {p : Step} (hpending : s.pending = [])
    (hstep : step s.rule s.start s.period = pure (some p)) :
    s.advance = if s.isTooLate p.floor then pure (none, s.finish)
      else advance { s with pending := p.candidates, period := p.following } := by
  rw [advance, hpending]
  dsimp only
  split
  next breakdown h => cases hstep.symm.trans h
  next h => cases hstep.symm.trans h
  next q h =>
    obtain rfl := Option.some.inj (Except.ok.inj (hstep.symm.trans h))
    rfl

/-- Below the count one more occurrence can be counted. -/
theorem exists_emittedOnceMore (hs : s.Sound) (hmore : ∀ n ∈ s.rule.count?, s.emitted < n) :
    ∃ emitted, s.emittedOnceMore = pure emitted ∧ 0 ≤ emitted ∧
      (∀ n ∈ s.rule.count?, emitted ≤ n) ∧
      s.rule.count?.map (· - emitted.toNat) =
        (s.rule.count?.map (· - s.emitted.toNat)).map (· - 1) := by
  have hnonneg := hs.emitted_nonneg
  unfold emittedOnceMore
  cases hcount : s.rule.count? with
  | none => exact ⟨s.emitted, rfl, hnonneg, fun n hn => (nomatch hn), rfl⟩
  | some n =>
      have hlt := hmore n hcount
      have hle := hs.ranges.count n hcount
      refine ⟨s.emitted + 1, ?_, by omega, fun m hm => ?_, ?_⟩
      · rw [Option.isSome_some, if_pos rfl]
        exact Word.add_of_holds (Word.holds_unsigned32_iff.mpr (by omega))
      · obtain rfl := Option.some.inj hm
        omega
      · simp only [Option.map_some, Option.some.injEq]
        omega

theorem place_isTooLate (s : State) (t : DateTime) : s.place.isTooLate t = s.isTooLate t :=
  rfl

theorem Sound.finish (hs : s.Sound) : s.finish.Sound :=
  ⟨hs.valid, hs.ranges, hs.period_nonneg, hs.emitted_nonneg, hs.emitted_le⟩

/-- The search for the next occurrence does not break down, and it finds what the search without
words finds. -/
theorem advance_spec (hs : s.Sound) (hmore : ∀ n ∈ s.rule.count?, s.emitted < n) :
    ∃ s', s.advance = pure (s.place.advance.1, s') ∧ s'.Sound ∧
      s'.place.coming = s.place.advance.2.coming := by
  -- The induction is on the number of periods ahead, as in the search without words.
  generalize hahead : Rule.periodLimit - s.period.toNat = ahead
  induction ahead using Nat.strongRecOn generalizing s with
  | ind ahead ih =>
      cases hpending : s.pending with
      | cons t rest =>
          rw [advance_of_cons hpending, Occurrences.advance_of_cons (o := s.place) hpending,
            place_isTooLate]
          split
          · exact ⟨s.finish, rfl, hs.finish, rfl⟩
          · obtain ⟨emitted, hemitted, hnonneg, hle, hremaining⟩ := exists_emittedOnceMore hs hmore
            rw [hemitted, pure_bind]
            refine ⟨_, rfl, ⟨hs.valid, hs.ranges, hs.period_nonneg, hnonneg, hle⟩, ?_⟩
            dsimp only [place]
            rw [hremaining]
      | nil =>
          have hperiod : s.period = (s.period.toNat : Int) :=
            (Int.toNat_of_nonneg hs.period_nonneg).symm
          have hstep := step_cases hs.valid hs.ranges s.start s.period.toNat
          rw [← hperiod] at hstep
          obtain ⟨p, hsome, hstep⟩ | ⟨hstep, hlast⟩ := hstep
          · rw [advance_of_some hpending hstep,
              Occurrences.advance_of_eq_some (o := s.place) hpending hsome, place_isTooLate]
            split
            · exact ⟨s.finish, rfl, hs.finish, rfl⟩
            · have hlater := Rule.lt_following_of_period? hsome
              have hlimit := Rule.lt_periodLimit_of_period? hsome
              exact ih (Rule.periodLimit - p.following) (by omega)
                (s := { s with pending := p.candidates, period := p.following })
                ⟨hs.valid, hs.ranges, Int.natCast_nonneg _, hs.emitted_nonneg, hs.emitted_le⟩
                hmore rfl
          · rw [advance_of_none hpending hstep]
            obtain hnone | ⟨p, hsome, hempty, hnone⟩ := hlast
            · rw [Occurrences.advance_of_eq_none (o := s.place) hpending hnone]
              exact ⟨s.finish, rfl, hs.finish, rfl⟩
            · -- Where the search stops early, the other one finds an empty period before its end.
              rw [Occurrences.advance_of_eq_some (o := s.place) hpending hsome]
              split
              · exact ⟨s.finish, rfl, hs.finish, rfl⟩
              · rw [Occurrences.advance_of_eq_none hempty hnone]
                exact ⟨s.finish, rfl, hs.finish, rfl⟩

/-- The count is reached where no occurrence remains. -/
theorem count_reached_iff (hs : s.Sound) :
    s.rule.count?.any (fun (n : Nat) => n ≤ s.emitted) = true ↔ s.place.remaining = some 0 := by
  have hnonneg := hs.emitted_nonneg
  have hle := hs.emitted_le
  show _ ↔ s.rule.count?.map (· - s.emitted.toNat) = some 0
  cases hcount : s.rule.count? with
  | none => simp
  | some n =>
      have hn := hle n hcount
      rw [Option.any_some, decide_eq_true_eq, Option.map_some, Option.some.injEq]
      omega

/-- One call of `next` does not break down, and it gives what it gives without words. -/
theorem next_spec (hs : s.Sound) :
    ∃ s', s.next = pure (s.place.coming.head?, s') ∧ s'.Sound ∧
      s'.place.coming = s.place.coming.tail := by
  rw [← s.place.fst_next, ← s.place.coming_next]
  have hended : s.place.ended = s.ended := rfl
  rw [next, Occurrences.next, hended]
  split
  · exact ⟨s, rfl, hs, rfl⟩
  · split
    next hreached =>
      rw [if_pos ((count_reached_iff hs).mp hreached)]
      exact ⟨s.finish, rfl, hs.finish, rfl⟩
    next hmore =>
      rw [if_neg fun h => hmore ((count_reached_iff hs).mpr h)]
      refine advance_spec hs fun n hn => ?_
      rw [Option.mem_def.mp hn, Option.any_some, decide_eq_true_eq] at hmore
      exact Int.not_le.mp hmore

/-- No call of `next` breaks down, and the calls give what comes at the place. -/
theorem after_spec (hs : s.Sound) (n : Nat) :
    ∃ s', s.after n = pure s' ∧ s'.Sound ∧ s'.place.coming = s.place.coming.drop n := by
  induction n generalizing s with
  | zero => exact ⟨s, rfl, hs, rfl⟩
  | succ n ih =>
      obtain ⟨s₁, hnext, hs₁, hcoming⟩ := next_spec hs
      obtain ⟨s', hafter, hs', hrest⟩ := ih hs₁
      refine ⟨s', ?_, hs', ?_⟩
      · rw [after, hnext, pure_bind]
        exact hafter
      · rw [hrest, hcoming, List.drop_tail]

end State

/-- The beginning of the sequence is sound, and what comes there are the rule's occurrences. -/
theorem occurrences_spec (hvalid : r.Valid) (hranges : r.WithinRanges) (start : DateTime) :
    ∃ s, occurrences r start = pure s ∧ s.Sound ∧
      s.place.coming = (r.occurrences start).toList := by
  refine ⟨⟨r, start, 0, [], 0, r.neverOccurs start.time⟩, ?_,
    ⟨hvalid, hranges, Int.le_refl 0, Int.le_refl 0, fun n _ => Int.natCast_nonneg n⟩, ?_⟩
  · rw [occurrences, neverMatches_eq hranges, pure_bind]
  · have hplace : State.place ⟨r, start, 0, [], 0, r.neverOccurs start.time⟩ =
        r.occurrences start := by
      simp [State.place, Rule.occurrences]
    rw [hplace, Occurrences.toList_eq_coming]

/-- A rule that was read or built holds numbers from their ranges only.  Whatever the start,
after any number of calls of `next` the next one does not break down, and it gives the
occurrence of that number. -/
theorem evaluation_never_breaks_down
    (h : (∃ text, Rule.parse text = .ok r) ∨
      ∃ frequency settings, (Draft.ofSettings frequency settings).build = .ok r)
    (start : DateTime) :
    r.WithinRanges ∧ ∃ first, occurrences r start = pure first ∧ ∀ n, ∃ reached rest,
      first.after n = pure reached ∧
        reached.next = pure ((r.occurrences start).item n, rest) := by
  obtain ⟨hvalid, hranges⟩ : r.Valid ∧ r.WithinRanges := by
    obtain ⟨text, hparse⟩ | ⟨frequency, settings, hbuild⟩ := h
    · exact ⟨Rule.valid_of_parse hparse, Rule.withinRanges_of_parse hparse⟩
    · exact ⟨Draft.valid_of_build hbuild, Rule.withinRanges_of_build hbuild⟩
  obtain ⟨first, hfirst, hsound, hcoming⟩ := occurrences_spec hvalid hranges start
  refine ⟨hranges, first, hfirst, fun n => ?_⟩
  obtain ⟨reached, hreached, hsound', hrest⟩ := State.after_spec hsound n
  obtain ⟨rest, hnext, -⟩ := State.next_spec hsound'
  refine ⟨reached, rest, hreached, ?_⟩
  rw [hnext, hrest, hcoming, List.head?_drop, Occurrences.item_eq_getElem?]

/-- Some minutes of an hour, with numbers at the ends of their ranges. -/
def farHours : Rule :=
  { frequency := .hourly, interval := 4294967295, ending := some (.count 4294967295),
    weekStart := .monday, months := [], yearDays := [], monthDays := [-31, 31], weekdays := [],
    hours := [23, 0], minutes := [59], seconds := [60, 0], setPositions := [-366, 1],
    interval_pos := by decide }

/-- From the first datetime of the calendar on it happens once, for the second tick lies outside
the calendar. -/
theorem farHours_evaluated :
    Rule.parse ("FREQ=HOURLY;INTERVAL=4294967295;COUNT=4294967295;BYMONTHDAY=-31,31;" ++
        "BYHOUR=23,0;BYMINUTE=59;BYSECOND=60,0;BYSETPOS=-366,1") = .ok farHours ∧
      (List.range 2).map (fun n => ((farHours.occurrences Rule.calendarStart).item n).map
          fun t => (t.date.number, t.time.secondOfDay)) = [some (-3652059, 3540), none] ∧
      farHours.WithinRanges ∧
      ∃ first, occurrences farHours Rule.calendarStart = pure first ∧ ∀ n, ∃ reached rest,
        first.after n = pure reached ∧
          reached.next = pure ((farHours.occurrences Rule.calendarStart).item n, rest) := by
  have hparse : Rule.parse
      ("FREQ=HOURLY;INTERVAL=4294967295;COUNT=4294967295;BYMONTHDAY=-31,31;" ++
        "BYHOUR=23,0;BYMINUTE=59;BYSECOND=60,0;BYSETPOS=-366,1") = .ok farHours := by
    decide +kernel
  exact ⟨hparse, by decide +kernel, evaluation_never_breaks_down (.inl ⟨_, hparse⟩) _⟩

end Machine
end Timetable
