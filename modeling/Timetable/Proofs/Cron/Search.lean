import Timetable.Proofs.Cron.Canonical
import Timetable.Proofs.Cron.Step

/-!
# Searches find the first match

A search that may take as many steps as its allowance gives what comes first from its cursor
on, or none if there is nothing: `isFirstFrom_search`.  For datetimes this says that
`nextMatch?` gives exactly the first match: `nextMatch?_eq_some_iff_isFirstMatch`.
-/

namespace Timetable

open Civil

namespace Cron

variable {e : Cron} {c next : Cursor}

/-- What a search from a cursor should give: the first match from there on, or none if there
is none. -/
def IsFirstFrom (e : Cron) (c : Cursor) : Option DateTime → Prop
  | some t =>
      1970 ≤ t.date.year ∧ t.time.nanosecond = 0 ∧ e.Accepts (Cursor.ofSecond t) ∧
        c.rank ≤ (Cursor.ofSecond t).rank ∧
        ∀ d, e.Accepts d → c.rank ≤ d.rank → (Cursor.ofSecond t).rank ≤ d.rank
  | none => ∀ d, e.Accepts d → ¬ c.rank ≤ d.rank

/-- What comes first from the next cursor on comes first from the cursor that leads to it. -/
theorem isFirstFrom_of_leads (hleads : e.Leads c next) {found : Option DateTime}
    (h : e.IsFirstFrom next found) : e.IsFirstFrom c found := by
  have hskip := hleads.rank_le_of_accepts
  cases found with
  | none =>
      intro d hd hrank
      exact h d hd (hskip d hd hrank)
  | some t =>
      obtain ⟨hyear, hwhole, haccepts, hrank, hleast⟩ := h
      refine ⟨hyear, hwhole, haccepts, Nat.le_trans hleads.rank_le hrank, ?_⟩
      intro d hd hle
      exact hleast d hd (hskip d hd hle)

/-- A search that may take as many steps as its allowance gives what comes first. -/
theorem isFirstFrom_search (he : e.Proper) {steps : Nat} (hc : c.Fits)
    (hsteps : e.allowance c ≤ steps) : e.IsFirstFrom c (e.search steps c) := by
  induction steps generalizing c with
  | zero =>
      have hpos := e.one_le_allowance c
      omega
  | succ steps ih =>
      have hsound := sound_move he hc
      rw [search]
      cases hmove : e.move c with
      | found =>
          -- The cursor itself is at a match, so nothing from it on comes earlier.
          rw [hmove] at hsound
          obtain ⟨t, ht, hcursor, hwhole, hyear⟩ := exists_dateTime?_of_accepts hsound
          dsimp only
          rw [ht]
          refine ⟨hyear, hwhole, ?_, ?_, ?_⟩
          · rw [hcursor]
            exact hsound
          · exact Nat.le_of_eq (congrArg Cursor.rank hcursor.symm)
          · intro d _ hrank
            rw [hcursor]
            exact hrank
      | goOn next =>
          -- The next cursor has a lower allowance, so one step less is enough for it.
          rw [hmove] at hsound
          have hless := hsound.allowance_lt
          exact isFirstFrom_of_leads hsound (ih hsound.fits (by omega))
      | exhausted =>
          rw [hmove] at hsound
          exact hsound

/-- The first whole second from a start on that an expression matches. -/
structure IsFirstMatch (e : Cron) (start t : DateTime) : Prop where
  nanosecond_eq : t.time.nanosecond = 0
  start_le : start ≤ t
  isMatch : e.isMatch t = true
  not_isMatch_before : ∀ u, u.time.nanosecond = 0 → start ≤ u → u < t → e.isMatch u = false

theorem IsFirstMatch.unique {start t u : DateTime} (ht : e.IsFirstMatch start t)
    (hu : e.IsFirstMatch start u) : t = u := by
  have hle {t u : DateTime} (ht : e.IsFirstMatch start t) (hu : e.IsFirstMatch start u) :
      t ≤ u := by
    intro hlt
    have hnone := ht.not_isMatch_before u hu.nanosecond_eq hu.start_le hlt
    rw [hu.isMatch] at hnone
    simp at hnone
  exact le_antisymm (hle ht hu) (hle hu ht)

/-- Cursors at matches are the matches. -/
theorem accepts_and_rank_le_iff {start t : DateTime} (hyear : 1970 ≤ t.date.year)
    (hwhole : t.time.nanosecond = 0) :
    e.Accepts (Cursor.ofSecond t) ∧
        (Cursor.ofDateTime start).rank ≤ (Cursor.ofSecond t).rank ↔
      e.isMatch t = true ∧ start ≤ t := by
  rw [isMatch_iff_accepts hyear, Cursor.rank_ofDateTime_le_iff hyear hwhole]

/-- Given enough steps a search finds the first match of a start, or none if there is
none. -/
theorem nextMatch?_spec (he : e.Proper) {steps : Nat} (hsteps : defaultSteps ≤ steps)
    (start : DateTime) :
    match e.nextMatch? steps start with
    | some t => e.IsFirstMatch start t
    | none => ∀ t, t.time.nanosecond = 0 → start ≤ t → e.isMatch t = false := by
  have hfits := Cursor.fits_ofDateTime start
  have hallowance := allowance_le_defaultSteps (e := e) hfits
  have hfirst := isFirstFrom_search he hfits (Nat.le_trans hallowance hsteps)
  unfold nextMatch?
  cases hsearch : e.search steps (Cursor.ofDateTime start) with
  | none =>
      rw [hsearch] at hfirst
      intro t hwhole hstart
      by_contra hmatch
      rw [Bool.not_eq_false] at hmatch
      have hyear := (year_le_of_isMatch hmatch).1
      obtain ⟨haccepts, hrank⟩ :=
        (accepts_and_rank_le_iff hyear hwhole).mpr ⟨hmatch, hstart⟩
      exact hfirst _ haccepts hrank
  | some t =>
      rw [hsearch] at hfirst
      obtain ⟨hyear, hwhole, haccepts, hrank, hleast⟩ := hfirst
      obtain ⟨hmatch, hstart⟩ :=
        (accepts_and_rank_le_iff hyear hwhole).mp ⟨haccepts, hrank⟩
      refine ⟨hwhole, hstart, hmatch, ?_⟩
      intro u huwhole hustart hlt
      by_contra humatch
      rw [Bool.not_eq_false] at humatch
      have huyear := (year_le_of_isMatch humatch).1
      obtain ⟨huaccepts, hurank⟩ :=
        (accepts_and_rank_le_iff huyear huwhole).mpr ⟨humatch, hustart⟩
      have hle := hleast _ huaccepts hurank
      -- `u` is not before `t`, for neither is its cursor.
      have hseconds := mt (Cursor.rank_ofSecond_lt_iff huyear hyear).mpr (by omega)
      rw [DateTime.lt_iff_instant_lt] at hlt
      simp only [DateTime.instant, hwhole, huwhole] at hlt
      simp only [DateTime.wholeSeconds] at hseconds
      omega

/-- An expression that was read has its next match found exactly: the first whole second
from the start on that it matches, or none if there is none.  No search is cut short. -/
theorem nextMatch?_eq_some_iff_isFirstMatch {text : String} (h : parse text = .ok e)
    (start : DateTime) :
    (∀ t, e.nextMatch? defaultSteps start = some t ↔ e.IsFirstMatch start t) ∧
      (e.nextMatch? defaultSteps start = none ↔
        ∀ t, t.time.nanosecond = 0 → start ≤ t → e.isMatch t = false) ∧
      ∀ steps, defaultSteps ≤ steps →
        e.nextMatch? steps start = e.nextMatch? defaultSteps start := by
  have hspec {steps : Nat} (hsteps : defaultSteps ≤ steps) :=
    nextMatch?_spec (proper_of_parse h) hsteps start
  have hsome {steps : Nat} (hsteps : defaultSteps ≤ steps) (t : DateTime) :
      e.nextMatch? steps start = some t ↔ e.IsFirstMatch start t := by
    have hspec := hspec hsteps
    cases hfound : e.nextMatch? steps start with
    | none =>
        rw [hfound] at hspec
        simp only [reduceCtorEq, false_iff]
        -- A first match would be a match that the empty result denies.
        intro hfirst
        have hnone := hspec t hfirst.nanosecond_eq hfirst.start_le
        rw [hfirst.isMatch] at hnone
        simp at hnone
    | some u =>
        rw [hfound] at hspec
        rw [Option.some.injEq]
        constructor
        · rintro rfl
          exact hspec
        · intro hfirst
          exact hspec.unique hfirst
  refine ⟨hsome (Nat.le_refl _), ?_, ?_⟩
  · constructor
    · intro hnone
      have hspec := hspec (Nat.le_refl _)
      rw [hnone] at hspec
      exact hspec
    · intro hnone
      rw [Option.eq_none_iff_forall_ne_some]
      intro t ht
      have hfirst := (hsome (Nat.le_refl _) t).mp ht
      have hrefused := hnone t hfirst.nanosecond_eq hfirst.start_le
      rw [hfirst.isMatch] at hrefused
      simp at hrefused
  · intro steps hsteps
    apply Option.ext
    intro t
    rw [hsome hsteps, hsome (Nat.le_refl _)]

/-- Midnight of every 29 February. -/
def leapDays : Cron :=
  { seconds := .only [0] [], minutes := .only [0] [], hours := .only [0] [],
    daysOfMonth := .only [29] [], months := .only [2] [], daysOfWeek := .any, years := .any,
    showsSeconds := false, showsYears := false }

/-- Half a second after midnight on 29 February 2024. -/
def afterLeapMidnight : DateTime :=
  (DateTime.ofReading? 2024 2 29 0 0 0 500000000).get (by decide)

/-- Midnight on 29 February 2028. -/
def nextLeapMidnight : DateTime :=
  (DateTime.ofReading? 2028 2 29 0 0 0 0).get (by decide)

theorem leapDays_isFirstMatch :
    parse "0 0 29 2 *" = .ok leapDays ∧
      leapDays.nextMatch? defaultSteps afterLeapMidnight = some nextLeapMidnight ∧
      leapDays.IsFirstMatch afterLeapMidnight nextLeapMidnight := by
  have hread : parse "0 0 29 2 *" = .ok leapDays := by rfl
  have hfound : leapDays.nextMatch? defaultSteps afterLeapMidnight =
      some nextLeapMidnight := by decide +kernel
  refine ⟨hread, hfound, ?_⟩
  exact ((nextMatch?_eq_some_iff_isFirstMatch hread afterLeapMidnight).1 _).mp hfound

end Cron
end Timetable
