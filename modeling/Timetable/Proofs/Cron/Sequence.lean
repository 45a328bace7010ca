import Timetable.Proofs.Cron.Search

/-!
# The sequence of matches

The matches of an expression come one after the other, each found by a search from the
second after the one before it.  If the expression's fields are proper and every search may
take enough steps, they are all the matches from the start on: `item_eq_getElem?` says so for
any ascending list that has them as its members.
-/

namespace Timetable

open Civil

/-- What the `n`-th call of `next` gives, counted from 0. -/
def Matches.item (m : Matches) : Nat → Option DateTime
  | 0 => m.next.1
  | n + 1 => m.next.2.item n

namespace Matches

/-- At the end all calls give nothing. -/
theorem item_of_position_eq_none {m : Matches} (h : m.position = none) (n : Nat) :
    m.item n = none := by
  have hnext : m.next = (none, { m with position := none }) := by
    rw [next, h]
    rfl
  induction n generalizing m with
  | zero => rw [item, hnext]
  | succ n ih =>
      rw [item, hnext]
      exact ih rfl (by rw [next]; rfl)

end Matches

namespace Cron

variable {e : Cron} {start t : DateTime} {steps : Nat} {l : List DateTime}

/-- Whether a list has the matches of an expression from a start on, in their order. -/
structure ListsMatches (e : Cron) (start : DateTime) (l : List DateTime) : Prop where
  ascends : l.Pairwise (· < ·)
  mem_iff : ∀ t, t ∈ l ↔ t.time.nanosecond = 0 ∧ start ≤ t ∧ e.isMatch t = true

/-- The first of the listed matches is the one that a search finds. -/
theorem nextMatch?_eq_head? (he : e.Proper) (hsteps : defaultSteps ≤ steps)
    (hl : e.ListsMatches start l) : e.nextMatch? steps start = l.head? := by
  have hspec := nextMatch?_spec he hsteps start
  cases l with
  | nil =>
      rw [List.head?_nil]
      by_contra hfound
      obtain ⟨t, ht⟩ := Option.ne_none_iff_exists'.mp hfound
      rw [ht] at hspec
      have hmem := (hl.mem_iff t).mpr ⟨hspec.nanosecond_eq, hspec.start_le, hspec.isMatch⟩
      simp at hmem
  | cons t rest =>
      obtain ⟨hwhole, hstart, hmatch⟩ := (hl.mem_iff t).mp List.mem_cons_self
      have hfirst : e.IsFirstMatch start t := by
        refine ⟨hwhole, hstart, hmatch, ?_⟩
        intro u hu hustart hlt
        by_contra humatch
        rw [Bool.not_eq_false] at humatch
        rcases List.mem_cons.mp ((hl.mem_iff u).mpr ⟨hu, hustart, humatch⟩) with rfl | hmem
        · exact lt_irrefl u hlt
        · exact lt_asymm hlt ((List.pairwise_cons.mp hl.ascends).1 u hmem)
      cases hfound : e.nextMatch? steps start with
      | none =>
          rw [hfound] at hspec
          rw [hspec t hwhole hstart] at hmatch
          simp at hmatch
      | some u =>
          rw [hfound] at hspec
          rw [List.head?_cons, hspec.unique hfirst]

private theorem position_bind (he : e.Proper) (hsteps : defaultSteps ≤ steps)
    (hl : e.ListsMatches start l) :
    (e.occurrences start steps).position.bind
      ((e.occurrences start steps).cron.nextMatch? (e.occurrences start steps).steps) =
        l.head? :=
  nextMatch?_eq_head? he hsteps hl

/-- After a match there is a next second in the calendar. -/
theorem exists_addSeconds?_one (h : e.isMatch t = true) : ∃ u, t.addSeconds? 1 = some u := by
  have hsecond := t.time.secondOfDay_lt
  obtain ⟨-, hyear⟩ := year_le_of_isMatch h
  have hlast : t.date.number < 3652424 := by
    -- The calendar ends with the year 9999.
    have hend : Date.number ⟨3652424, by decide, by decide⟩ = 3652424 := rfl
    rw [← hend, Date.number_lt_iff]
    left
    have hyearEnd : Date.year ⟨3652424, by decide, by decide⟩ = 9999 := by decide +kernel
    omega
  have hfirst := t.date.first_le
  let date : Date := ⟨t.date.number + ((t.time.secondOfDay + 1) / 86400 : Nat),
    by omega, by omega⟩
  refine ⟨⟨date, (t.time.secondOfDay + 1) % 86400, t.time.nanosecond,
    Nat.mod_lt _ (by decide), t.time.nanosecond_lt⟩, ?_⟩
  rw [DateTime.addSeconds?_eq_some_iff]
  refine ⟨?_, rfl, rfl, rfl⟩
  have hgreatest : DateTime.greatestDays = 2932896 := rfl
  omega

/-- A second after a match the remaining matches are still to come. -/
theorem ListsMatches.tail {rest : List DateTime} {u : DateTime}
    (hl : e.ListsMatches start (t :: rest)) (hu : t.addSeconds? 1 = some u) :
    e.ListsMatches u rest := by
  obtain ⟨hlater, hrest⟩ := List.pairwise_cons.mp hl.ascends
  obtain ⟨hwhole, hstart, -⟩ := (hl.mem_iff t).mp List.mem_cons_self
  have hseconds := DateTime.wholeSeconds_addSeconds? hu
  have hnano : u.time.nanosecond = 0 :=
    (DateTime.addSeconds?_eq_some_iff.mp hu).2.2.2.trans hwhole
  -- Among whole seconds, after `t` is as much as from the next second on.
  have hnext {v : DateTime} (hv : v.time.nanosecond = 0) : u ≤ v ↔ t < v := by
    rw [DateTime.le_iff_instant_le, DateTime.lt_iff_instant_lt]
    simp only [DateTime.instant, hv, hnano, hwhole]
    simp only [DateTime.wholeSeconds] at hseconds
    omega
  refine ⟨hrest, ?_⟩
  intro v
  constructor
  · intro hv
    obtain ⟨hvwhole, -, hmatch⟩ := (hl.mem_iff v).mp (List.mem_cons_of_mem t hv)
    exact ⟨hvwhole, (hnext hvwhole).mpr (hlater v hv), hmatch⟩
  · rintro ⟨hvwhole, hle, hmatch⟩
    have hlt := (hnext hvwhole).mp hle
    have hmem := (hl.mem_iff v).mpr ⟨hvwhole, le_trans hstart hlt.le, hmatch⟩
    rcases List.mem_cons.mp hmem with rfl | hmem
    · exact absurd hlt (lt_irrefl v)
    · exact hmem

/-- The calls of `next` give the matches in their order, and then nothing. -/
theorem item_occurrences_eq_getElem? (he : e.Proper) (hsteps : defaultSteps ≤ steps)
    (hl : e.ListsMatches start l) (n : Nat) :
    (e.occurrences start steps).item n = l[n]? := by
  induction n generalizing start l with
  | zero =>
      rw [Matches.item, Matches.next, position_bind he hsteps hl]
      cases l <;> rfl
  | succ n ih =>
      rw [Matches.item, Matches.next, position_bind he hsteps hl]
      cases l with
      | nil => exact Matches.item_of_position_eq_none rfl n
      | cons t rest =>
          obtain ⟨u, hu⟩ := exists_addSeconds?_one ((hl.mem_iff t).mp List.mem_cons_self).2.2
          rw [List.getElem?_cons_succ, ← ih (hl.tail hu)]
          show Matches.item { e.occurrences start steps with position := t.addSeconds? 1 } n = _
          rw [hu]
          rfl

end Cron
end Timetable
