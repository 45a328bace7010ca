import Timetable.Proofs.Text.Reading
import Timetable.Rule.Parser

/-!
# Valid rules

A draft passes its checks if and only if the values fit each other and lie in their ranges:
`check_eq_ok_iff`.  Rules that are built from a draft or read from a text are valid:
`valid_of_build` and `valid_of_parse`.
-/

namespace Timetable

open Civil

namespace Draft

theorem require_eq_ok_iff {condition : Bool} {fault : Rule.Fault} :
    require condition fault = .ok () ↔ condition = true := by
  cases condition <;> simp [require]

theorem checkRange_eq_ok_iff {range : ValueRange} {values : List Int} :
    checkRange range values = .ok () ↔ ∀ n ∈ values, range.contains n = true := by
  unfold checkRange
  cases h : values.find? fun n => !range.contains n with
  | none =>
      rw [List.find?_eq_none] at h
      simpa using h
  | some n =>
      have hmem := List.mem_of_find?_eq_some h
      have hout := List.find?_some h
      simp only [reduceCtorEq, false_iff]
      intro hall
      simp [hall n hmem] at hout

/-- What the checks of a draft ask for. -/
theorem check_eq_ok_iff {d : Draft} :
    d.check = .ok () ↔
      (d.count.isNone || d.deadline.isNone) = true ∧
      (d.yearDays.isEmpty || d.frequency = .yearly) = true ∧
      (d.monthDays.isEmpty || d.frequency ≠ .weekly) = true ∧
      (d.frequency.allowsOrdinals || d.weekdays.all fun s => s.ordinal.isNone) = true ∧
      (∀ n ∈ d.yearDays, ValueRange.yearDay.contains n = true) ∧
      (∀ n ∈ d.monthDays, ValueRange.monthDay.contains n = true) ∧
      (∀ n ∈ d.hours.map Int.ofNat, ValueRange.hour.contains n = true) ∧
      (∀ n ∈ d.minutes.map Int.ofNat, ValueRange.minute.contains n = true) ∧
      (∀ n ∈ d.seconds.map Int.ofNat, ValueRange.second.contains n = true) ∧
      (∀ n ∈ d.setPositions, ValueRange.setPosition.contains n = true) ∧
      ∀ n ∈ d.weekdays.filterMap WeekdaySelector.ordinal,
        ValueRange.ordinal.contains n = true := by
  simp only [check, bind_eq_ok_iff, Unique.exists_iff, PUnit.default_eq_unit,
    require_eq_ok_iff, checkRange_eq_ok_iff]

/-- A draft that passes its checks is the one that holds the values of its rule. -/
theorem toDraft_of_build {d : Draft} {r : Rule} (h : d.build = .ok r) :
    d.check = .ok () ∧ r.toDraft = d := by
  unfold build at h
  split at h
  next =>
    cases hcheck : d.check with
    | error fault => simp [hcheck, Except.map] at h
    | ok =>
        simp only [hcheck, Except.map, Except.ok.injEq] at h
        subst h
        have hendings := (check_eq_ok_iff.mp hcheck).1
        refine ⟨rfl, ?_⟩
        obtain ⟨_, _, count, deadline⟩ := d
        cases count <;> cases deadline <;> first | rfl | simp at hendings
  next => simp at h

theorem valid_of_build {d : Draft} {r : Rule} (h : d.build = .ok r) : r.Valid := by
  obtain ⟨hcheck, hdraft⟩ := toDraft_of_build h
  rw [Rule.Valid, hdraft, hcheck]
  rfl

end Draft

namespace Rule

/-- Properties make the rule that is built from the draft into which they were entered, if no
name is repeated and there are not two endings. -/
theorem ofProperties_eq_ok_iff {whole : Span} {ps : List Property} {r : Rule} :
    ofProperties whole ps = .ok r ↔
      Property.findRepeated? [] ps = none ∧ ∃ frequency,
        Property.readFrequency whole ps = .ok frequency ∧ ∃ d,
          ps.foldlM Draft.enterProperty (Draft.ofFrequency frequency) = .ok d ∧
            Property.secondEnding? ps = none ∧ d.build = .ok r := by
  rw [ofProperties]
  cases Property.findRepeated? [] ps with
  | some p => simp [bind_eq_ok_iff]
  | none =>
      cases Property.secondEnding? ps with
      | some p => simp [bind_eq_ok_iff]
      | none => simp [bind_eq_ok_iff, mapError_eq_ok_iff]

/-- A rule that was read is built from a draft into which properties were entered. -/
theorem exists_build_of_parse {text : String} {r : Rule} (h : parse text = .ok r) :
    ∃ frequency, ∃ ps : List Property, ∃ d,
      ps.foldlM Draft.enterProperty (Draft.ofFrequency frequency) = .ok d ∧
        d.build = .ok r := by
  unfold parse at h
  dsimp only at h
  split at h
  next => simp at h
  next =>
    obtain ⟨ps, -, h⟩ := bind_eq_ok_iff.mp (mapError_eq_ok_iff.mp h)
    obtain ⟨-, frequency, -, d, hdraft, -, hbuild⟩ := ofProperties_eq_ok_iff.mp h
    exact ⟨frequency, ps, d, hdraft, hbuild⟩

/-- A rule that was read is valid. -/
theorem valid_of_parse {text : String} {r : Rule} (h : parse text = .ok r) : r.Valid := by
  obtain ⟨_, _, _, -, hbuild⟩ := exists_build_of_parse h
  exact Draft.valid_of_build hbuild

theorem Valid.check_eq_ok {r : Rule} (h : r.Valid) : r.toDraft.check = .ok () := by
  unfold Valid at h
  cases hcheck : r.toDraft.check with
  | error fault => simp [hcheck, Except.isOk, Except.toBool] at h
  | ok => rfl

theorem Valid.yearDays_eq_nil {r : Rule} (h : r.Valid) (hyearly : r.frequency ≠ .yearly) :
    r.yearDays = [] := by
  have hyearDays := (Draft.check_eq_ok_iff.mp h.check_eq_ok).2.1
  simpa [toDraft, hyearly] using hyearDays

theorem Valid.monthDays_eq_nil {r : Rule} (h : r.Valid) (hweekly : r.frequency = .weekly) :
    r.monthDays = [] := by
  have hmonthDays := (Draft.check_eq_ok_iff.mp h.check_eq_ok).2.2.1
  simpa [toDraft, hweekly] using hmonthDays

/-- Only monthly and yearly rules have ordinals. -/
theorem Valid.ordinal_eq_none {r : Rule} (h : r.Valid)
    (hplain : r.frequency.allowsOrdinals = false) : ∀ s ∈ r.weekdays, s.ordinal = none := by
  have hordinals := (Draft.check_eq_ok_iff.mp h.check_eq_ok).2.2.2.1
  simpa [toDraft, hplain] using hordinals

end Rule
end Timetable
