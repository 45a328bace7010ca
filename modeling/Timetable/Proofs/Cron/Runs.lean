import Mathlib.Data.List.Sort
import Timetable.Proofs.Cron.Fields
import Timetable.Proofs.Cron.Items

/-!
# Values written as runs and read back

The printer gathers the values of a field into runs of consecutive ones, or into one
progression by steps through the whole range.  `progressionsOf` names these progressions and
`valuesOf_progressionsOf` says that they have the values again, for every ascending list of
values of a kind.

Runs are followed by induction on the list of values.  What a list of runs covers is the
list, in whatever order its values come: `mem_runs_iff`.
-/

namespace Timetable
namespace Cron

/-! ## Runs -/

/-- A run does not end before it begins. -/
theorem first_le_last_of_mem_runs {values : List Nat} {run : Nat × Nat}
    (h : run ∈ runs values) : run.1 ≤ run.2 := by
  induction values generalizing run with
  | nil => simp [runs] at h
  | cons v vs ih =>
      rw [runs] at h
      split at h
      next first last rest hruns =>
        have hfirst : first ≤ last := ih (hruns ▸ List.mem_cons_self)
        split at h
        next =>
          rcases List.mem_cons.mp h with rfl | hmem
          · show v ≤ last
            omega
          · exact ih (hruns ▸ List.mem_cons_of_mem _ hmem)
        next =>
          rcases List.mem_cons.mp h with rfl | hmem
          · exact Nat.le_refl v
          · exact ih (hruns ▸ hmem)
      next =>
        rw [List.mem_singleton.mp h]

/-- The values inside the runs of a list are those of the list. -/
theorem mem_runs_iff {values : List Nat} {n : Nat} :
    (∃ run ∈ runs values, run.1 ≤ n ∧ n ≤ run.2) ↔ n ∈ values := by
  induction values with
  | nil => simp [runs]
  | cons v vs ih =>
      rw [List.mem_cons, ← ih, runs]
      split
      next first last rest hruns =>
        have hmem : (first, last) ∈ runs vs := hruns ▸ List.mem_cons_self
        have hfirst : first ≤ last := first_le_last_of_mem_runs hmem
        simp only [hruns, List.exists_mem_cons_iff]
        split
        next hnext =>
          -- The run that begins with the next value now begins with `v`.
          have hgrow : v ≤ n ∧ n ≤ last ↔ n = v ∨ first ≤ n ∧ n ≤ last := by omega
          rw [List.exists_mem_cons_iff, hgrow, or_assoc]
        next =>
          have hself : v ≤ n ∧ n ≤ v ↔ n = v := by omega
          rw [List.exists_mem_cons_iff, List.exists_mem_cons_iff, hself]
      next hruns =>
        have hself : v ≤ n ∧ n ≤ v ↔ n = v := by omega
        simp [hruns, hself]

/-- The progressions for a run: a range, or its values one by one. -/
def runProgressions (run : Nat × Nat) : List Progression :=
  if run.1 + 2 ≤ run.2 then
    [⟨run.1, run.2, 1⟩]
  else
    (List.range (run.2 + 1 - run.1)).map fun i => ⟨run.1 + i, run.1 + i, 1⟩

theorem runItems_eq_map_chars (run : Nat × Nat) :
    runItems run = (runProgressions run).map Progression.chars := by
  unfold runItems runProgressions
  split
  next hlong =>
    have hne : run.1 ≠ run.2 := by omega
    simp [Progression.chars, hne]
  next => simp [Progression.chars, Function.comp_def]

theorem exists_runProgressions_iff {run : Nat × Nat} {n : Nat} :
    (∃ p ∈ runProgressions run, p.contains n = true) ↔ run.1 ≤ n ∧ n ≤ run.2 := by
  unfold runProgressions
  split
  next => simp [Progression.contains_range]
  next =>
    simp only [List.mem_map, List.mem_range, exists_exists_and_eq_and,
      Progression.contains_single]
    constructor
    · rintro ⟨i, hi, rfl⟩
      omega
    · rintro ⟨hfirst, hlast⟩
      exact ⟨n - run.1, by omega, by omega⟩

theorem fits_of_mem_runProgressions {k : Kind} {run : Nat × Nat} {p : Progression}
    (hleast : k.least ≤ run.1) (hgreatest : run.2 ≤ k.greatest)
    (h : p ∈ runProgressions run) : p.Fits k := by
  unfold runProgressions at h
  split at h
  next hlong =>
    rw [List.mem_singleton.mp h]
    exact .inl ⟨hleast, by dsimp only; omega, hgreatest, rfl⟩
  next =>
    obtain ⟨i, hi, rfl⟩ := List.mem_map.mp h
    rw [List.mem_range] at hi
    exact Progression.fits_single (by omega) (by omega)

/-! ## Steps through the whole range -/

theorem fullStep?_eq_some {k : Kind} {values : List Nat} {step : Nat}
    (h : fullStep? k values = some step) :
    2 ≤ step ∧ values = k.values.filter fun v => (v - k.least) % step = 0 := by
  unfold fullStep? at h
  split at h
  next =>
    dsimp only at h
    split at h
    next hcond =>
      obtain rfl := Option.some.inj h
      exact hcond.2
    next => simp at h
  next => simp at h

/-- The step is the second value less the first one, so it is no greater than a value. -/
theorem exists_ge_of_fullStep? {k : Kind} {values : List Nat} {step : Nat}
    (h : fullStep? k values = some step) : ∃ v ∈ values, step ≤ v := by
  unfold fullStep? at h
  split at h
  next first second rest =>
    dsimp only at h
    split at h
    next =>
      obtain rfl := Option.some.inj h
      exact ⟨second, by simp, Nat.sub_le second first⟩
    next => simp at h
  next => simp at h

/-! ## All values of a field -/

/-- The progressions as which the values of a field are written. -/
def progressionsOf (k : Kind) (values : List Nat) : List Progression :=
  match fullStep? k values with
  | some step => [⟨k.least, k.greatest, step⟩]
  | none => (runs values).flatMap runProgressions

theorem valueItems_eq_map_chars (k : Kind) (values : List Nat) :
    valueItems k values = (progressionsOf k values).map Progression.chars := by
  unfold valueItems progressionsOf
  cases hstep : fullStep? k values with
  | some step =>
      have htwo := (fullStep?_eq_some hstep).1
      have hne : step ≠ 1 := by omega
      simp [Progression.chars, hne]
  | none =>
      rw [List.map_flatMap, funext runItems_eq_map_chars]

variable {k : Kind} {values : List Nat}

theorem fits_of_mem_progressionsOf (hvalues : ∀ v ∈ values, v ∈ k.values) {p : Progression}
    (h : p ∈ progressionsOf k values) : p.Fits k := by
  unfold progressionsOf at h
  split at h
  next step hstep =>
    obtain ⟨v, hv, hle⟩ := exists_ge_of_fullStep? hstep
    have hgreatest := (Kind.mem_values_iff.mp (hvalues v hv)).2
    have hwritten := greatest_le_greatestWritten k
    have hlt := greatestWritten_lt k
    rw [List.mem_singleton.mp h]
    exact .inr ⟨rfl, rfl, (fullStep?_eq_some hstep).1, by dsimp only; omega⟩
  next =>
    obtain ⟨run, hrun, hp⟩ := List.mem_flatMap.mp h
    -- A run begins and ends with values of the list.
    have hle := first_le_last_of_mem_runs hrun
    have hfirst : run.1 ∈ values := mem_runs_iff.mp ⟨run, hrun, Nat.le_refl _, hle⟩
    have hlast : run.2 ∈ values := mem_runs_iff.mp ⟨run, hrun, hle, Nat.le_refl _⟩
    exact fits_of_mem_runProgressions (Kind.mem_values_iff.mp (hvalues _ hfirst)).1
      (Kind.mem_values_iff.mp (hvalues _ hlast)).2 hp

/-- Together the progressions have the values of the list and no others. -/
theorem exists_progressionsOf_iff {n : Nat} :
    (∃ p ∈ progressionsOf k values, p.contains n = true) ↔ n ∈ values := by
  unfold progressionsOf
  split
  next step hstep =>
    rw [(fullStep?_eq_some hstep).2, List.mem_filter, Kind.mem_values_iff]
    simp only [List.mem_singleton, exists_eq_left, Progression.contains, Bool.and_eq_true,
      decide_eq_true_eq]
  next =>
    simp only [List.mem_flatMap]
    constructor
    · rintro ⟨p, ⟨run, hrun, hp⟩, hcontains⟩
      exact mem_runs_iff.mp ⟨run, hrun, exists_runProgressions_iff.mp ⟨p, hp, hcontains⟩⟩
    · intro hn
      obtain ⟨run, hrun, hbounds⟩ := mem_runs_iff.mpr hn
      obtain ⟨p, hp, hcontains⟩ := exists_runProgressions_iff.mpr hbounds
      exact ⟨p, ⟨run, hrun, hp⟩, hcontains⟩

theorem progressionsOf_ne_nil (hne : values ≠ []) : progressionsOf k values ≠ [] := by
  obtain ⟨v, hv⟩ := List.exists_mem_of_ne_nil values hne
  obtain ⟨p, hp, -⟩ := exists_progressionsOf_iff.mpr hv
  exact List.ne_nil_of_mem hp

/-- A value that fits is among the values of its kind, so no progression that fits has the
second spelling of a value. -/
theorem any_spellings_iff {p : Progression} (hp : p.Fits k) {v : Nat} (hv : v ∈ k.values) :
    (k.spellings v).any p.contains = true ↔ p.contains v = true := by
  have hlast : p.last ≤ k.greatest := by
    rcases hp with ⟨-, -, hle, -⟩ | ⟨-, heq, -⟩
    · exact hle
    · exact heq.le
  unfold Kind.spellings
  split
  next hsunday =>
    simp only [Bool.and_eq_true, decide_eq_true_eq] at hsunday
    obtain ⟨rfl, rfl⟩ := hsunday
    have hseven : p.contains 7 = false := by
      have hlast : p.last ≤ 6 := hlast
      have hnot : ¬ 7 ≤ p.last := by omega
      simp [Progression.contains, hnot]
    simp [hseven]
  next => simp

/-- Values that were written as progressions are read back. -/
theorem valuesOf_progressionsOf (hascend : values.Pairwise (· < ·))
    (hvalues : ∀ v ∈ values, v ∈ k.values) (marks : List Mark) :
    valuesOf k ((progressionsOf k values).map Item.progression ++ marks.map Item.mark) =
      values := by
  apply List.Pairwise.eq_of_mem_iff ((values_ascend k).sublist List.filter_sublist) hascend
  intro v
  rw [List.mem_filter, List.any_eq_true]
  constructor
  · rintro ⟨hv, item, hitem, hcontains⟩
    rcases List.mem_append.mp hitem with hitem | hitem
    · obtain ⟨p, hp, rfl⟩ := List.mem_map.mp hitem
      have hfits := fits_of_mem_progressionsOf hvalues hp
      exact exists_progressionsOf_iff.mp
        ⟨p, hp, (any_spellings_iff hfits hv).mp hcontains⟩
    · obtain ⟨m, -, rfl⟩ := List.mem_map.mp hitem
      simp at hcontains
  · intro hv
    obtain ⟨p, hp, hcontains⟩ := exists_progressionsOf_iff.mpr hv
    have hfits := fits_of_mem_progressionsOf hvalues hp
    exact ⟨hvalues v hv, .progression p,
      List.mem_append_left _ (List.mem_map_of_mem hp),
      (any_spellings_iff hfits (hvalues v hv)).mpr hcontains⟩

end Cron
end Timetable
