import Mathlib.Data.Finset.Sort
import Mathlib.Data.Int.Interval
import Mathlib.Order.Interval.Set.Infinite
import Timetable.Proofs.Cron.Sequence

/-!
# Limits on the steps of a search

A search that ends within a number of steps ends in the same way within any greater number:
`search_mono`.  So a limit on the steps never changes a match that is found.  It can only
let a search give up, and then the sequence ends there.

`Matches.Gives` describes a whole run by a list: the calls of `next` give its members in
their order, and nothing from then on.  Of two limits the lower one gives the front part of
what the higher one gives (`exists_gives_prefix`), and the default limit gives all matches
from the start on (`occurrences_gives_all_matches`).
-/

namespace Timetable

open Civil

/-- The calls of `next` give the members of a list one after the other, and then nothing. -/
def Matches.Gives (m : Matches) (l : List DateTime) : Prop :=
  ∀ n, m.item n = l[n]?

namespace Matches

variable {m : Matches} {t : DateTime} {l : List DateTime}

theorem gives_nil (h : m.next.1 = none) : m.Gives [] := by
  have hposition : m.next.2.position = none := by
    rw [next] at h ⊢
    split at h
    next => simp at h
    next => rfl
  intro n
  cases n with
  | zero => exact h
  | succ n => exact item_of_position_eq_none hposition n

theorem gives_cons (h : m.next.1 = some t) (hrest : m.next.2.Gives l) : m.Gives (t :: l) := by
  intro n
  cases n with
  | zero => exact h
  | succ n => exact hrest n

theorem Gives.head (h : m.Gives l) : m.next.1 = l.head? := by
  rw [List.head?_eq_getElem?]
  exact h 0

theorem Gives.tail (h : m.Gives (t :: l)) : m.next.2.Gives l :=
  fun n => h (n + 1)

/-- After the end nothing is given. -/
theorem Gives.item_eq_none (h : m.Gives l) {n k : Nat} (hend : m.item n = none) :
    m.item (n + k) = none := by
  rw [h, List.getElem?_eq_none_iff] at *
  omega

end Matches

namespace Cron

variable {e : Cron} {start t : DateTime} {few many steps : Nat} {l : List DateTime}

/-! ## More steps -/

/-- What is found within some steps is found within more. -/
theorem search_mono (h : few ≤ many) {c : Cursor} (hfound : e.search few c = some t) :
    e.search many c = some t := by
  induction few generalizing many c with
  | zero => simp [search] at hfound
  | succ few ih =>
      obtain ⟨many, rfl⟩ : ∃ n, many = n + 1 := ⟨many - 1, by omega⟩
      rw [search] at hfound ⊢
      cases hmove : e.move c with
      | found => rwa [hmove] at hfound
      | goOn next =>
          rw [hmove] at hfound
          exact ih (Nat.le_of_succ_le_succ h) hfound
      | exhausted => simp [hmove] at hfound

theorem nextMatch?_mono (h : few ≤ many) (hfound : e.nextMatch? few start = some t) :
    e.nextMatch? many start = some t :=
  search_mono h hfound

/-- A call gives the match that is found and goes on a second later. -/
theorem next_occurrences (e : Cron) (start : DateTime) (steps : Nat) :
    (e.occurrences start steps).next = (e.nextMatch? steps start,
      ⟨e, (e.nextMatch? steps start).bind fun t => t.addSeconds? 1, steps⟩) := by
  have hposition : (e.occurrences start steps).position.bind
      ((e.occurrences start steps).cron.nextMatch? (e.occurrences start steps).steps) =
        e.nextMatch? steps start := rfl
  rw [Matches.next, hposition]
  cases e.nextMatch? steps start <;> rfl

theorem fst_next_occurrences (e : Cron) (start : DateTime) (steps : Nat) :
    (e.occurrences start steps).next.1 = e.nextMatch? steps start := by
  rw [next_occurrences]

theorem snd_next_occurrences (hfound : e.nextMatch? steps start = some t) :
    (e.occurrences start steps).next.2 = ⟨e, t.addSeconds? 1, steps⟩ := by
  rw [next_occurrences, hfound, Option.bind_some]

/-- A lower limit gives the front part of what a higher limit gives. -/
theorem exists_gives_prefix (h : few ≤ many) (hl : (e.occurrences start many).Gives l) :
    ∃ front, (e.occurrences start few).Gives front ∧ front <+: l := by
  induction l generalizing start with
  | nil =>
      refine ⟨[], Matches.gives_nil ?_, List.prefix_rfl⟩
      have hnone := hl.head
      rw [fst_next_occurrences] at hnone ⊢
      -- A match within the lower limit would be one within the higher limit.
      by_contra hsome
      obtain ⟨t, ht⟩ := Option.ne_none_iff_exists'.mp hsome
      rw [nextMatch?_mono h ht] at hnone
      simp at hnone
  | cons t rest ih =>
      have hmany : e.nextMatch? many start = some t := by
        rw [← fst_next_occurrences]
        exact hl.head
      have hrest := hl.tail
      rw [snd_next_occurrences hmany] at hrest
      cases hfew : e.nextMatch? few start with
      | none =>
          refine ⟨[], Matches.gives_nil ?_, List.nil_prefix⟩
          rw [fst_next_occurrences, hfew]
      | some u =>
          obtain rfl : u = t := by
            rw [nextMatch?_mono h hfew] at hmany
            exact Option.some.inj hmany
          have hnext : (e.occurrences start few).next.1 = some u := by
            rw [fst_next_occurrences, hfew]
          have hafter := snd_next_occurrences hfew
          cases hsecond : u.addSeconds? 1 with
          | none =>
              -- At the end of the calendar both runs are over.
              rw [hsecond] at hafter
              refine ⟨[u], Matches.gives_cons hnext ?_, ?_⟩
              · rw [hafter]
                exact Matches.item_of_position_eq_none rfl
              · exact List.prefix_append [u] rest
          | some v =>
              rw [hsecond] at hafter hrest
              obtain ⟨front, hfront, hprefix⟩ := ih hrest
              refine ⟨u :: front, Matches.gives_cons hnext ?_, ?_⟩
              · rw [hafter]
                exact hfront
              · exact (List.prefix_cons_inj u).mpr hprefix

/-! ## All matches -/

/-- The matches of an expression from a start on can be listed in their order. -/
theorem exists_listsMatches (e : Cron) (start : DateTime) : ∃ l, e.ListsMatches start l := by
  -- The calendar has finitely many whole seconds.
  have hfinite : {t : DateTime |
      t.time.nanosecond = 0 ∧ start ≤ t ∧ e.isMatch t = true}.Finite := by
    apply Set.Finite.of_finite_image (f := DateTime.wholeSeconds)
    · apply (Set.finite_Icc (-3652059 * 86400) (3652425 * 86400)).subset
      rintro _ ⟨t, -, rfl⟩
      have hfirst := t.date.first_le
      have hlast := t.date.le_last
      have hsecond := t.time.secondOfDay_lt
      simp only [DateTime.wholeSeconds, Set.mem_Icc]
      omega
    · rintro t ⟨ht, -⟩ u ⟨hu, -⟩ hseconds
      exact DateTime.ext_wholeSeconds hseconds (ht.trans hu.symm)
  refine ⟨hfinite.toFinset.sort (· ≤ ·), ?_, ?_⟩
  · exact (Finset.sortedLT_sort _).pairwise
  · intro t
    rw [Finset.mem_sort, Set.Finite.mem_toFinset, Set.mem_ofPred_eq]

/-- The default limit gives all the matches of an expression that was read, in ascending
order and none after the last year that expressions match.  Of two limits the lower one
gives the front part of what the higher one gives.  After the first call that gives nothing
no call gives anything. -/
theorem occurrences_gives_all_matches {text : String} (h : parse text = .ok e)
    (start : DateTime) :
    (∃ l, (e.occurrences start defaultSteps).Gives l ∧ l.Pairwise (· < ·) ∧
      (∀ t, t ∈ l ↔ t.time.nanosecond = 0 ∧ start ≤ t ∧ e.isMatch t = true) ∧
      ∀ t ∈ l, t.date.year ≤ lastYear) ∧
    (∀ few many, few ≤ many → ∃ front l, (e.occurrences start few).Gives front ∧
      (e.occurrences start many).Gives l ∧ front <+: l) ∧
    ∀ steps n k, (e.occurrences start steps).item n = none →
      (e.occurrences start steps).item (n + k) = none := by
  obtain ⟨l, hl⟩ := e.exists_listsMatches start
  have hgives {steps : Nat} (hsteps : defaultSteps ≤ steps) :
      (e.occurrences start steps).Gives l :=
    item_occurrences_eq_getElem? (proper_of_parse h) hsteps hl
  -- Every limit gives a list, for it is below some limit that gives all matches.
  have hexists (steps : Nat) : ∃ front, (e.occurrences start steps).Gives front := by
    obtain ⟨front, hfront, -⟩ :=
      exists_gives_prefix (Nat.le_max_left steps defaultSteps) (hgives (Nat.le_max_right _ _))
    exact ⟨front, hfront⟩
  refine ⟨⟨l, hgives (Nat.le_refl _), hl.ascends, hl.mem_iff, ?_⟩, ?_, ?_⟩
  · intro t ht
    exact (year_le_of_isMatch ((hl.mem_iff t).mp ht).2.2).2
  · intro few many hle
    obtain ⟨long, hlong⟩ := hexists many
    obtain ⟨front, hfront, hprefix⟩ := exists_gives_prefix hle hlong
    exact ⟨front, long, hfront, hlong, hprefix⟩
  · intro steps n k hnone
    obtain ⟨front, hfront⟩ := hexists steps
    exact hfront.item_eq_none hnone

/-- Midnight at the beginning of every month. -/
def monthBeginnings : Cron :=
  { seconds := .only [0] [], minutes := .only [0] [], hours := .only [0] [],
    daysOfMonth := .only [1] [], months := .any, daysOfWeek := .any, years := .any,
    showsSeconds := false, showsYears := false }

/-- The middle of October in the last year that expressions match. -/
def lastOctober : DateTime :=
  (DateTime.ofReading? 2099 10 15 0 0 0 0).get (by decide)

/-- Twenty-five steps lead from the middle of October to November, but no further; the
default limit also gives December, and then nothing. -/
theorem monthBeginnings_cut_short :
    parse "0 0 1 * *" = .ok monthBeginnings ∧
      (monthBeginnings.occurrences lastOctober 25).item 0 =
        (monthBeginnings.occurrences lastOctober defaultSteps).item 0 ∧
      (monthBeginnings.occurrences lastOctober 25).item 1 = none ∧
      (monthBeginnings.occurrences lastOctober defaultSteps).item 1 ≠ none ∧
      (monthBeginnings.occurrences lastOctober defaultSteps).item 2 = none ∧
      ((∃ l, (monthBeginnings.occurrences lastOctober defaultSteps).Gives l ∧
        l.Pairwise (· < ·) ∧
        (∀ t, t ∈ l ↔
          t.time.nanosecond = 0 ∧ lastOctober ≤ t ∧ monthBeginnings.isMatch t = true) ∧
        ∀ t ∈ l, t.date.year ≤ lastYear) ∧
      (∀ few many, few ≤ many →
        ∃ front l, (monthBeginnings.occurrences lastOctober few).Gives front ∧
          (monthBeginnings.occurrences lastOctober many).Gives l ∧ front <+: l) ∧
      ∀ steps n k, (monthBeginnings.occurrences lastOctober steps).item n = none →
        (monthBeginnings.occurrences lastOctober steps).item (n + k) = none) := by
  have hread : parse "0 0 1 * *" = .ok monthBeginnings := by rfl
  refine ⟨hread, ?_, ?_, ?_, ?_, occurrences_gives_all_matches hread lastOctober⟩
  all_goals decide +kernel

end Cron
end Timetable
