import Timetable.Proofs.Rule.Entries
import Timetable.Rule.Setting

/-!
# The text of a rule is read back

`parse_chars_eq_ok_iff` settles what becomes of the text of a draft: it is read as the rule
that is built from the draft, and only if that rule is built.  There is one exception.  A
deadline before the year 0 is built and written, with a minus, but no such literal is read.

A rule that was read has no such deadline, so its text is always read as the rule itself:
`parse_text_eq_ok_of_parse`.  A rule that was built from settings is read back unless its
deadline lies before the year 0: `readsAsBuilt_ofSettings_iff`.
-/

namespace Timetable

open Civil

namespace Draft

variable {d acc acc' : Draft}

/-! ## Built drafts are admitted -/

/-- A draft that is built admits its keys, a deadline before the year 0 left aside. -/
theorem admits_of_build {r : Rule} (h : d.build = .ok r)
    (hyear : ∀ t ∈ d.deadline, 0 ≤ t.date.year) {key : Key} (hkey : key ∈ d.keys) :
    d.Admits key := by
  obtain ⟨-, hyearDays, hmonthDays, hordinals, hyearDay, hmonthDay, hhour, hminute, hsecond,
    hposition, hordinal⟩ := check_eq_ok_iff.mp (toDraft_of_build h).1
  -- A key that is written has a value, so its list is not the empty one.
  have hne := mem_keys_iff.mp hkey
  cases key with
  | frequency | count | weekStart | months => trivial
  | interval =>
      unfold build at h
      split at h
      next hpos => exact hpos
      next => simp at h
  | deadline => exact hyear
  | yearDays =>
      refine ⟨?_, hyearDay⟩
      simpa [show d.yearDays ≠ [] by simpa [valueItems] using hne] using hyearDays
  | monthDays =>
      refine ⟨?_, hmonthDay⟩
      simpa [show d.monthDays ≠ [] by simpa [valueItems] using hne] using hmonthDays
  | weekdays =>
      intro s hs n hn
      refine ⟨hordinal n (List.mem_filterMap.mpr ⟨s, hs, hn⟩), ?_⟩
      rw [Bool.or_eq_true, List.all_eq_true] at hordinals
      rcases hordinals with hallows | hnone
      · exact hallows
      · have hordinal := hnone s hs
        rw [Option.mem_def.mp hn] at hordinal
        simp at hordinal
  | hours => exact hhour
  | minutes => exact hminute
  | seconds => exact hsecond
  | setPositions => exact hposition

theorem year_nonneg_of_admits (h : ∀ key ∈ d.keys, d.Admits key) :
    ∀ t ∈ d.deadline, 0 ≤ t.date.year := by
  intro t ht
  have hkey : Key.deadline ∈ d.keys := by
    rw [mem_keys_iff]
    simp [valueItems, Option.mem_def.mp ht]
  exact h .deadline hkey t ht

/-! ## Reading the text of a draft -/

/-- The properties of a draft's text make the rule that is built from the draft. -/
theorem ofProperties_eq_ok_iff (hfits : d.Fits) {ps : List Property}
    (hshows : List.Forall₂ d.Shows d.keys ps) (whole : Span) {r : Rule} :
    Rule.ofProperties whole ps = .ok r ↔
      d.build = .ok r ∧ ∀ t ∈ d.deadline, 0 ≤ t.date.year := by
  have hentered {acc : Draft} : ps.foldlM enterProperty (ofFrequency d.frequency) = .ok acc ↔
      (∀ key ∈ d.keys, d.Admits key) ∧ acc = d := by
    have hfrequency : (ofFrequency d.frequency).frequency = d.frequency := rfl
    rw [foldlM_enterProperty_eq_ok_iff hfits hshows (fun _ h => h) hfrequency,
      foldl_copy_keys]
  rw [Rule.ofProperties_eq_ok_iff, and_iff_right (findRepeated?_eq_none hshows)]
  simp only [readFrequency_eq_ok hshows, Except.ok.injEq, exists_eq_left', hentered]
  constructor
  · rintro ⟨_, ⟨hadmits, rfl⟩, -, hbuild⟩
    exact ⟨hbuild, year_nonneg_of_admits hadmits⟩
  · rintro ⟨hbuild, hyear⟩
    have hendings := (check_eq_ok_iff.mp (toDraft_of_build hbuild).1).1
    exact ⟨d, ⟨fun _ => admits_of_build hbuild hyear, rfl⟩,
      (secondEnding?_eq_none_iff hshows).mpr hendings, hbuild⟩

/-- The text begins with the name of the frequency. -/
theorem exists_chars_eq_cons (d : Draft) : ∃ rest, d.chars = 'F' :: rest := by
  rw [chars, segments_eq, keys_eq_cons, List.map_cons]
  cases (Key.all.tail.filter fun key => !(d.valueItems key).isEmpty).map d.segmentChars with
  | nil => exact ⟨_, rfl⟩
  | cons segment rest => exact ⟨_, rfl⟩

/-- No header is taken off the text. -/
theorem body_chars (d : Draft) : Rule.body d.chars = (0, d.chars) := by
  obtain ⟨rest, hrest⟩ := d.exists_chars_eq_cons
  have hheader : Text.upper (d.chars.take Rule.header.length) ≠ Rule.header := by
    rw [hrest]
    intro h
    exact absurd (List.cons.inj h).1 (by decide)
  rw [Rule.body, if_neg hheader]

/-- The text of a draft is read as the rule that is built from the draft, unless the
deadline lies before the year 0. -/
theorem parse_chars_eq_ok_iff (hfits : d.Fits) {r : Rule} :
    Rule.parse (String.ofList d.chars) = .ok r ↔
      d.build = .ok r ∧ ∀ t ∈ d.deadline, 0 ≤ t.date.year := by
  have hblank : (Text.trim d.chars).isEmpty = false := by
    obtain ⟨rest, hrest⟩ := d.exists_chars_eq_cons
    have hmem : 'F' ∈ Text.trim d.chars :=
      Text.mem_trim (by decide) (hrest ▸ List.mem_cons_self)
    rw [List.isEmpty_eq_false_iff]
    exact List.ne_nil_of_mem hmem
  obtain ⟨ps, hread, hshows⟩ := d.readAll_chars 0
  rw [Rule.parse, String.toList_ofList, if_neg (by rw [hblank]; decide), mapError_eq_ok_iff,
    Rule.read, body_chars]
  show Property.readAll 0 d.chars >>= _ = Except.ok r ↔ _
  rw [hread]
  exact ofProperties_eq_ok_iff hfits hshows _

/-! ## Drafts that settings or a reader can make -/

theorem fits_ofFrequency (frequency : Frequency) : (ofFrequency frequency).Fits :=
  ⟨(by decide : 1 < Nat.pow 2 32), by simp [ofFrequency], by simp [ofFrequency]⟩

/-- A setting keeps the sizes of the numbers. -/
theorem fits_set (h : d.Fits) (s : Setting) : (d.set s).Fits := by
  cases s with
  | interval n => exact ⟨n.toNat_lt, h.count_lt, h.deadline_whole⟩
  | count n =>
      refine ⟨h.interval_lt, ?_, h.deadline_whole⟩
      intro m hm
      obtain rfl := Option.some.inj hm
      exact n.toNat_lt
  | deadline t =>
      refine ⟨h.interval_lt, h.count_lt, ?_⟩
      intro u hu
      obtain rfl := Option.some.inj hu
      rfl
  | _ => exact ⟨h.interval_lt, h.count_lt, h.deadline_whole⟩

theorem fits_ofSettings (frequency : Frequency) (settings : List Setting) :
    (ofSettings frequency settings).Fits := by
  unfold ofSettings
  generalize hd : ofFrequency frequency = d
  have hfits : d.Fits := hd ▸ fits_ofFrequency frequency
  clear hd
  induction settings generalizing d with
  | nil => exact hfits
  | cons s rest ih => exact ih (d.set s) (fits_set hfits s)

/-- What holds of every draft that a reader makes: besides the sizes of its numbers, a
deadline in the year 0 or later. -/
structure Legible (d : Draft) : Prop extends d.Fits where
  year_nonneg : ∀ t ∈ d.deadline, 0 ≤ t.date.year

theorem legible_ofFrequency (frequency : Frequency) : (ofFrequency frequency).Legible :=
  ⟨fits_ofFrequency frequency, by simp [ofFrequency]⟩

/-- Entering a property keeps a draft legible. -/
theorem legible_enter (h : acc.Legible) {key : Key} {value : List Char}
    (henter : acc.enter key value = .ok acc') : acc'.Legible := by
  by_cases hkey : key = .frequency
  · subst hkey
    obtain rfl := Except.ok.inj henter
    exact h
  · obtain ⟨hgiven, hcopy⟩ := (enter_eq_ok_iff_isGivenBy fun h => absurd h hkey).mp henter
    rw [← hcopy]
    cases key with
    | interval =>
        obtain ⟨-, -, hlt⟩ := hgiven
        exact ⟨⟨hlt, h.count_lt, h.deadline_whole⟩, h.year_nonneg⟩
    | count =>
        obtain ⟨n, hcount, -, hlt⟩ := hgiven
        refine ⟨⟨h.interval_lt, ?_, h.deadline_whole⟩, h.year_nonneg⟩
        intro m hm
        obtain rfl := Option.some.inj (hcount.symm.trans hm)
        exact hlt
    | deadline =>
        obtain ⟨t, hdeadline, ht⟩ := hgiven
        obtain ⟨hwhole, hyear⟩ := DateTime.wholeSecond_and_year_nonneg_of_ofStamp? ht
        refine ⟨⟨h.interval_lt, h.count_lt, ?_⟩, ?_⟩
        all_goals
          intro u hu
          obtain rfl := Option.some.inj (hdeadline.symm.trans hu)
        · exact hwhole
        · exact hyear
    | _ => exact ⟨⟨h.interval_lt, h.count_lt, h.deadline_whole⟩, h.year_nonneg⟩

theorem legible_enterProperty (h : acc.Legible) {p : Property}
    (henter : acc.enterProperty p = .ok acc') : acc'.Legible := by
  unfold enterProperty at henter
  have henter := mapError_eq_ok_iff.mp henter
  split at henter
  next => simp at henter
  next => exact legible_enter h henter

/-- Entering all properties of a text keeps a draft legible. -/
theorem legible_foldlM {ps : List Property} (h : acc.Legible)
    (henter : ps.foldlM enterProperty acc = .ok acc') : acc'.Legible := by
  induction ps generalizing acc with
  | nil =>
      rw [List.foldlM_nil, pure_eq_ok_iff] at henter
      exact henter ▸ h
  | cons p ps ih =>
      rw [List.foldlM_cons] at henter
      obtain ⟨next, hnext, henter⟩ := bind_eq_ok_iff.mp henter
      exact ih (legible_enterProperty h hnext) henter

end Draft

namespace Rule

/-! ## Rules that were read -/

/-- A rule that was read is built from its own values, and these are legible. -/
theorem build_and_legible_of_parse {text : String} {r : Rule} (h : parse text = .ok r) :
    r.toDraft.build = .ok r ∧ r.toDraft.Legible := by
  obtain ⟨frequency, ps, d, hdraft, hbuild⟩ := exists_build_of_parse h
  rw [(Draft.toDraft_of_build hbuild).2]
  exact ⟨hbuild, Draft.legible_foldlM (Draft.legible_ofFrequency frequency) hdraft⟩

/-- Whatever text a rule was read from, its own text is read as the same rule. -/
theorem parse_text_eq_ok_of_parse {text : String} {r : Rule} (h : parse text = .ok r) :
    parse r.text = .ok r := by
  obtain ⟨hbuild, hlegible⟩ := build_and_legible_of_parse h
  exact (Draft.parse_chars_eq_ok_iff hlegible.toFits).mpr ⟨hbuild, hlegible.year_nonneg⟩

/-- The end of the year 2030. -/
def endOf2030 : DateTime :=
  (DateTime.ofReading? 2030 12 31 23 59 59 0).get (by decide)

/-- Every other year the last of some Fridays, Mondays and Tuesdays in spring. -/
def springDays : Rule :=
  { frequency := .yearly, interval := 2, ending := some (.deadline endOf2030)
    weekStart := .sunday, months := [.march, .april, .march], yearDays := [], monthDays := []
    weekdays := [⟨.friday, some (-1)⟩, ⟨.monday, some 2⟩, ⟨.tuesday, none⟩]
    hours := [], minutes := [], seconds := [60, 0], setPositions := [-1]
    interval_pos := by decide }

/-- The rule in another order of its properties and in other letters. -/
def springText : String :=
  "rrule:bysetpos=-1; until = 2030-12-31t23:59:60z ;FREQ=yearly;wkst=su;interval=+2;" ++
    "bymonth=3, 04,3;byday=-1fr,+2MO,tu;bysecond=60,0;"

theorem springDays_read_back :
    parse springText = .ok springDays ∧
      springDays.text =
        "FREQ=YEARLY;INTERVAL=2;UNTIL=20301231T235959;WKST=SU;BYMONTH=3,4,3;" ++
          "BYDAY=-1FR,2MO,TU;BYSECOND=60,0;BYSETPOS=-1" ∧
      parse springDays.text = .ok springDays := by
  have hread : parse springText = .ok springDays := by decide +kernel
  exact ⟨hread, by decide +kernel, parse_text_eq_ok_of_parse hread⟩

end Rule

namespace Draft

/-! ## Rules that were built -/

/-- Whether a draft's text is read as what is built from the draft, and whether the text of
the rule is read as the rule. -/
def ReadsAsBuilt (d : Draft) : Prop :=
  (∀ r, Rule.parse (String.ofList d.chars) = .ok r ↔ d.build = .ok r) ∧
    ∀ r, d.build = .ok r → Rule.parse r.text = .ok r

/-- Whatever is set in a draft, its text is read as what is built, unless that is a rule
with a deadline before the year 0. -/
theorem readsAsBuilt_ofSettings_iff (frequency : Frequency) (settings : List Setting) :
    (ofSettings frequency settings).ReadsAsBuilt ↔
      ∀ r, (ofSettings frequency settings).build = .ok r →
        ∀ t ∈ r.deadline?, 0 ≤ t.date.year := by
  have hparse {r : Rule} := parse_chars_eq_ok_iff (r := r) (fits_ofSettings frequency settings)
  generalize ofSettings frequency settings = d at hparse
  -- A rule has the deadline of the draft that it was built from.
  have hdeadline {r : Rule} (hbuild : d.build = .ok r) : r.deadline? = d.deadline :=
    congrArg Draft.deadline (toDraft_of_build hbuild).2
  constructor
  · rintro ⟨hread, -⟩ r hbuild
    rw [hdeadline hbuild]
    exact (hparse.mp ((hread r).mpr hbuild)).2
  · intro hyear
    have hread (r : Rule) : Rule.parse (String.ofList d.chars) = .ok r ↔ d.build = .ok r := by
      rw [hparse]
      constructor
      · exact And.left
      · intro hbuild
        exact ⟨hbuild, hdeadline hbuild ▸ hyear r hbuild⟩
    refine ⟨hread, fun r hbuild => ?_⟩
    rw [Rule.text, (toDraft_of_build hbuild).2]
    exact (hread r).mpr hbuild

/-- Midnight at the beginning of the year 10 before the year 0. -/
def decadeBeforeYearZero : DateTime :=
  (DateTime.ofReading? (-10) 1 1 0 0 0 0).get (by decide)

/-- A draft of a daily rule that ends before the year 0. -/
def endsBeforeYearZero : Draft :=
  ofSettings .daily [.deadline decadeBeforeYearZero]

/-- The rule is built, but the text that shows its deadline is not read. -/
theorem endsBeforeYearZero_not_read :
    endsBeforeYearZero.build.isOk = true ∧
      String.ofList endsBeforeYearZero.chars = "FREQ=DAILY;UNTIL=-0100101T000000" ∧
      (Rule.parse "FREQ=DAILY;UNTIL=-0100101T000000").isOk = false ∧
      ¬ endsBeforeYearZero.ReadsAsBuilt := by
  have hbuild : endsBeforeYearZero.build.isOk = true := by decide +kernel
  have htext : String.ofList endsBeforeYearZero.chars = "FREQ=DAILY;UNTIL=-0100101T000000" := by
    decide +kernel
  have hparse : (Rule.parse "FREQ=DAILY;UNTIL=-0100101T000000").isOk = false := by
    decide +kernel
  refine ⟨hbuild, htext, hparse, ?_⟩
  rintro ⟨hread, -⟩
  cases hresult : endsBeforeYearZero.build with
  | error fault => simp [hresult, Except.isOk, Except.toBool] at hbuild
  | ok r =>
      have hok := (hread r).mpr hresult
      rw [htext] at hok
      simp [hok, Except.isOk, Except.toBool] at hparse

end Draft

end Timetable
