import Timetable.Proofs.Rule.Deadline

/-!
# The passes of a search

The search for the next occurrence goes in passes: `Occurrences.pass` takes a pending
candidate or evaluates one period.  A pass that is not the last one leads to a later period,
and the floor of that one, its tick or the midnight on which it begins, is later too, if the
calendar still has it: `lt_of_pass_eq_onward`.  A search therefore takes as many passes as
there are periods ahead at most, and one for its end.  `next_eq_nextWithin?` puts this
together: no call of `next` goes on forever.
-/

namespace Timetable

open Civil

namespace Rule

variable {r : Rule} {start : DateTime}

/-- The periods ahead have different numbers, all below the limit. -/
theorem length_periodsFrom_le (r : Rule) (start : DateTime) (k : Nat) :
    (r.periodsFrom start k).length ≤ periodLimit - k := by
  induction k using periodsFrom.induct r start with
  | case1 k hnone =>
      rw [periodsFrom_of_eq_none hnone]
      exact Nat.zero_le _
  | case2 k p hsome ih =>
      have hfollowing := lt_following_of_period? hsome
      have hlimit := lt_periodLimit_of_period? hsome
      rw [periodsFrom_of_eq_some hsome, List.length_cons]
      omega

end Rule

/-- What a pass of the search for the next occurrence comes to: what `next` gives and the
place after it, or a place from which the search goes on. -/
inductive Pass where
  | answer (given : Option DateTime) (rest : Occurrences)
  | onward (o : Occurrences)

namespace Occurrences

variable {o o' : Occurrences} {n : Nat}

/-- One pass: the first pending candidate is taken; if there is none, one period is
evaluated. -/
def pass (o : Occurrences) : Pass :=
  match o.pending with
  | t :: rest =>
      if o.isTooLate t then
        .answer none o.finish
      else
        .answer (some t) { o with pending := rest, remaining := o.remaining.map (· - 1) }
  | [] =>
      match o.rule.period? o.start o.period with
      | none => .answer none o.finish
      | some p =>
          if o.isTooLate p.floor then
            .answer none o.finish
          else
            .onward { o with pending := p.candidates, period := p.following }

/-- The answer of a search if it takes `n` passes at most. -/
def searchWithin? : Nat → Occurrences → Option (Option DateTime × Occurrences)
  | 0, _ => none
  | n + 1, o =>
      match o.pass with
      | .answer given rest => some (given, rest)
      | .onward o' => searchWithin? n o'

/-- What `next` gives if its search takes `n` passes at most. -/
def nextWithin? (o : Occurrences) (n : Nat) : Option (Option DateTime × Occurrences) :=
  if o.ended then
    some (none, o)
  else if o.remaining = some 0 then
    some (none, o.finish)
  else
    o.searchWithin? n

/-- The floor of the period that is evaluated next, if the calendar has it. -/
def floor? (o : Occurrences) : Option DateTime :=
  (o.rule.period? o.start o.period).map Period.floor

/-- A pass that is not the last one evaluates a period, whose candidates become pending. -/
theorem pass_eq_onward_cases (h : o.pass = .onward o') :
    ∃ p, o.rule.period? o.start o.period = some p ∧
      o' = { o with pending := p.candidates, period := p.following } := by
  unfold pass at h
  split at h
  next => split at h <;> simp at h
  next =>
    split at h
    next => simp at h
    next p hperiod =>
      split at h
      next => simp at h
      next => exact ⟨p, hperiod, (Pass.onward.inj h).symm⟩

/-- A pass that is not the last one leads to a later period. -/
theorem lt_of_pass_eq_onward (h : o.pass = .onward o') :
    o.period < o'.period ∧ ∃ a, o.floor? = some a ∧ ∀ b, o'.floor? = some b → a < b := by
  obtain ⟨p, hperiod, rfl⟩ := pass_eq_onward_cases h
  have hlt := Rule.lt_following_of_period? hperiod
  refine ⟨hlt, p.floor, by rw [floor?, hperiod, Option.map_some], ?_⟩
  intro b hb
  obtain ⟨q, hq, rfl⟩ := Option.map_eq_some_iff.mp hb
  exact Rule.floor_lt_floor_of_period? hlt hperiod hq

/-- There is one period less ahead after a pass that is not the last one. -/
theorem length_periodsFrom_of_pass (h : o.pass = .onward o') :
    (o.rule.periodsFrom o.start o.period).length =
      (o'.rule.periodsFrom o'.start o'.period).length + 1 := by
  obtain ⟨p, hperiod, rfl⟩ := pass_eq_onward_cases h
  rw [Rule.periodsFrom_of_eq_some hperiod, List.length_cons]

/-- The search without a limit goes in the same passes. -/
theorem advance_eq_pass (o : Occurrences) :
    o.advance = match o.pass with
      | .answer given rest => (given, rest)
      | .onward o' => o'.advance := by
  cases hpending : o.pending with
  | cons t rest =>
      rw [pass, hpending, advance_of_cons hpending]
      dsimp only
      split <;> rfl
  | nil =>
      cases hperiod : o.rule.period? o.start o.period with
      | none => rw [pass, hpending, hperiod, advance_of_eq_none hpending hperiod]
      | some p =>
          rw [pass, hpending, hperiod, advance_of_eq_some hpending hperiod]
          dsimp only
          split <;> rfl

/-- With more passes than there are periods ahead a search has an answer, which is the one
of the search without a limit. -/
theorem searchWithin?_eq_advance (h : (o.rule.periodsFrom o.start o.period).length < n) :
    o.searchWithin? n = some o.advance := by
  -- The periods ahead are the measure: every pass that goes on leaves one less.
  induction n generalizing o with
  | zero => exact absurd h (Nat.not_lt_zero _)
  | succ n ih =>
      rw [searchWithin?, advance_eq_pass]
      cases hpass : o.pass with
      | answer given rest => rfl
      | onward o' =>
          rw [length_periodsFrom_of_pass hpass] at h
          exact ih (Nat.lt_of_succ_lt_succ h)

/-- Whatever place in a sequence `next` is called at, each pass of its search is the last one
or leads to a later period with a later floor; the floors of all periods ahead ascend, and
there are no more of them than numbers below the limit; and the call returns after one pass
more than that at the latest. -/
theorem next_eq_nextWithin? (o : Occurrences) :
    (∀ o', o.pass = .onward o' →
        o.period < o'.period ∧ ∃ a, o.floor? = some a ∧ ∀ b, o'.floor? = some b → a < b) ∧
      ((o.rule.periodsFrom o.start o.period).map Period.floor).Pairwise (· < ·) ∧
      (o.rule.periodsFrom o.start o.period).length ≤ Rule.periodLimit - o.period ∧
      ∀ n, (o.rule.periodsFrom o.start o.period).length < n → o.nextWithin? n = some o.next := by
  refine ⟨fun _ => lt_of_pass_eq_onward, ?_, o.rule.length_periodsFrom_le o.start o.period, ?_⟩
  · rw [List.pairwise_map]
    exact o.rule.floors_ascend o.start o.period
  · intro n hn
    rw [nextWithin?, next, searchWithin?_eq_advance hn]
    split
    · rfl
    · split <;> rfl

/-- Every 30 February. -/
def februaryThe30ths : Rule :=
  { frequency := .yearly, interval := 1, ending := none, weekStart := .monday,
    months := [.february], yearDays := [], monthDays := [30], weekdays := [], hours := [],
    minutes := [], seconds := [], setPositions := [], interval_pos := Nat.one_pos }

/-- The beginning of the last year but one of the calendar. -/
def lateStart : DateTime :=
  (DateTime.ofReading? 9998 1 1 0 0 0 0).get (by decide)

/-- A search for a day that no month has passes over both years that are left. -/
theorem februaryThe30ths_search_ends :
    (∃ o', (februaryThe30ths.occurrences lateStart).pass = .onward o' ∧ 0 < o'.period) ∧
      (februaryThe30ths.periodsFrom lateStart 0).length = 2 ∧
      (februaryThe30ths.occurrences lateStart).nextWithin? 3 =
        some (februaryThe30ths.occurrences lateStart).next ∧
      (februaryThe30ths.occurrences lateStart).next.1 = none := by
  have hlength : (februaryThe30ths.periodsFrom lateStart 0).length = 2 := by decide +kernel
  obtain ⟨honward, -, -, hreturns⟩ :=
    next_eq_nextWithin? (februaryThe30ths.occurrences lateStart)
  obtain ⟨o', ho'⟩ : ∃ o', (februaryThe30ths.occurrences lateStart).pass = .onward o' :=
    ⟨_, by rfl⟩
  have hfew : (februaryThe30ths.periodsFrom lateStart 0).length < 3 := by
    rw [hlength]
    decide
  exact ⟨⟨o', ho', (honward o' ho').1⟩, hlength, hreturns 3 hfew, by decide +kernel⟩

end Occurrences
end Timetable
