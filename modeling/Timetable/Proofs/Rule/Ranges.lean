import Timetable.Proofs.Rule.RoundTrip

/-!
# The ranges of a rule's numbers

Rules that were read from a text or built from settings hold numbers from certain ranges only:
`withinRanges_of_parse` and `withinRanges_of_build`.  The interval and the count have 32 binary
digits, and the interval is not zero; the lists were checked when the rule was built.
-/

namespace Timetable
namespace Rule

/-- The ranges of the numbers of rules that were read or built. -/
structure WithinRanges (r : Rule) : Prop where
  interval : 1 ≤ r.interval ∧ r.interval ≤ 4294967295
  count : ∀ n ∈ r.count?, n ≤ 4294967295
  yearDays : ∀ n ∈ r.yearDays, -366 ≤ n ∧ n ≤ 366 ∧ n ≠ 0
  monthDays : ∀ n ∈ r.monthDays, -31 ≤ n ∧ n ≤ 31 ∧ n ≠ 0
  ordinals : ∀ s ∈ r.weekdays, ∀ n ∈ s.ordinal, -53 ≤ n ∧ n ≤ 53 ∧ n ≠ 0
  hours : ∀ n ∈ r.hours, n ≤ 23
  minutes : ∀ n ∈ r.minutes, n ≤ 59
  seconds : ∀ n ∈ r.seconds, n ≤ 60
  setPositions : ∀ n ∈ r.setPositions, -366 ≤ n ∧ n ≤ 366 ∧ n ≠ 0

variable {r : Rule}

theorem withinRanges_of_valid (hvalid : r.Valid) (hfits : r.toDraft.Fits) : r.WithinRanges := by
  obtain ⟨-, -, -, -, hyearDays, hmonthDays, hhours, hminutes, hseconds, hpositions, hordinals⟩ :=
    Draft.check_eq_ok_iff.mp hvalid.check_eq_ok
  have htime {range : ValueRange} {ns : List Nat} (hall : ∀ n ∈ ns.map Int.ofNat,
      range.contains n = true) : ∀ n ∈ ns, (n : Int) ≤ range.greatest := by
    intro n hn
    exact (ValueRange.bounds_of_contains (hall n (List.mem_map_of_mem hn))).2
  have hsigned {range : ValueRange} {ns : List Int} (hzero : range.allowsZero = false)
      (hall : ∀ n ∈ ns, range.contains n = true) :
      ∀ n ∈ ns, range.least ≤ n ∧ n ≤ range.greatest ∧ n ≠ 0 := by
    intro n hn
    have hcontains := hall n hn
    simp only [ValueRange.contains, hzero, Bool.false_or, Bool.and_eq_true,
      decide_eq_true_eq] at hcontains
    exact ⟨hcontains.1.1, hcontains.1.2, hcontains.2⟩
  exact {
    interval := ⟨r.interval_pos, Nat.le_of_lt_succ hfits.interval_lt⟩
    count := fun n hn => Nat.le_of_lt_succ (hfits.count_lt n hn)
    yearDays := hsigned rfl hyearDays
    monthDays := hsigned rfl hmonthDays
    ordinals := fun s hs n hn =>
      hsigned rfl hordinals n (List.mem_filterMap.mpr ⟨s, hs, hn⟩)
    hours := fun n hn => Int.ofNat_le.mp (htime hhours n hn)
    minutes := fun n hn => Int.ofNat_le.mp (htime hminutes n hn)
    seconds := fun n hn => Int.ofNat_le.mp (htime hseconds n hn)
    setPositions := hsigned rfl hpositions }

theorem withinRanges_of_parse {text : String} (h : parse text = .ok r) : r.WithinRanges := by
  obtain ⟨hbuild, hlegible⟩ := build_and_legible_of_parse h
  exact withinRanges_of_valid (Draft.valid_of_build hbuild) hlegible.toFits

theorem withinRanges_of_build {frequency : Frequency} {settings : List Setting}
    (h : (Draft.ofSettings frequency settings).build = .ok r) : r.WithinRanges := by
  have hfits := Draft.fits_ofSettings frequency settings
  rw [← (Draft.toDraft_of_build h).2] at hfits
  exact withinRanges_of_valid (Draft.valid_of_build h) hfits

end Rule
end Timetable
