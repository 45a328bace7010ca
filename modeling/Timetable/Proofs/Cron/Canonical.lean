import Timetable.Proofs.Cron.Grammar

/-!
# The canonical form of what was read

A field that was read has a canonical form: its values ascend, are values of its kind and
are not all of them unless there are marks; its marks suit the field and do not repeat; and
it is not empty.  `Field.canonical_of_read` derives this from the reader.

An expression that was read has canonical fields, and the fields that its text leaves out
are the ones the reader fills in (`canonical_of_parse`).  In particular a search can rely on
its fields: `proper_of_parse`.
-/

namespace Timetable
namespace Cron

open Civil

/-! ## Items and fields -/

/-- A mark that a text shows suits its field. -/
theorem ShowsMark.fits {k : Kind} {m : Mark} {cs : List Char} (h : ShowsMark k m cs) :
    m.Fits k := by
  cases h with
  | last | lastWorkday | lastMinusNone _ | lastOn _ => rfl
  | lastMinus _ hpos hle => exact ⟨rfl, hpos, hle⟩
  | nearestWorkday hday => exact ⟨rfl, hday.bounds⟩
  | nth _ _ hpos hle => exact ⟨rfl, hpos, hle⟩

/-- The form that the values and marks of a field have once they are read. -/
structure Canonical (k : Kind) (values : List Nat) (marks : List Mark) : Prop where
  values_ascend : values.Pairwise (· < ·)
  mem_values : ∀ v ∈ values, v ∈ k.values
  marks_fit : ∀ m ∈ marks, m.Fits k
  marks_nodup : marks.Nodup
  not_empty : values ≠ [] ∨ marks ≠ []
  not_any : ¬ (values = k.values ∧ marks = [])

/-- A field that accepts everything or has canonical values and marks. -/
def Field.IsCanonical (k : Kind) : Field → Prop
  | .any => True
  | .only values marks => Canonical k values marks

theorem mem_marksOf_iff {read : List Item} {m : Mark} :
    m ∈ marksOf read ↔ .mark m ∈ read := by
  rw [marksOf, List.mem_eraseDups, List.mem_filterMap]
  constructor
  · rintro ⟨item, hitem, hm⟩
    cases item with
    | mark m' =>
        obtain rfl := Option.some.inj hm
        exact hitem
    | progression p => simp at hm
  · intro hm
    exact ⟨.mark m, hm, rfl⟩

/-- The values and marks of items that were read are canonical unless they are everything. -/
theorem canonical_of_readItems {k : Kind} {cs : List Char} {read : List Item}
    (h : readItems k cs = .ok read) (hnot : ¬ (valuesOf k read = k.values ∧ marksOf read = [])) :
    Canonical k (valuesOf k read) (marksOf read) :=
  have hshows := (readItems_eq_ok_iff.mp h).imp fun _ _ h => h.2
  { values_ascend := (values_ascend k).sublist List.filter_sublist
    mem_values := fun _ hv => List.mem_of_mem_filter hv
    marks_fit := by
      intro m hm
      obtain ⟨text, -, hitem⟩ := exists_of_forall₂ hshows (mem_marksOf_iff.mp hm)
      cases hitem with
      | mark hmark => exact hmark.fits
    marks_nodup := Lists.nodup_eraseDups _
    not_empty := by
      obtain ⟨item, hmem⟩ := List.exists_mem_of_ne_nil read (ne_nil_of_readItems h)
      cases item with
      | mark m => exact .inr (List.ne_nil_of_mem (mem_marksOf_iff.mpr hmem))
      | progression p =>
          obtain ⟨text, htext⟩ := exists_showsProgression hshows hmem
          have hvalue : k.fold p.first ∈ valuesOf k read :=
            (mem_valuesOf_iff fun _ => exists_showsProgression hshows).mpr
              ⟨p, hmem, 0, by simpa using htext.first_le_last, by simp⟩
          exact .inl (List.ne_nil_of_mem hvalue)
    not_any := hnot }

/-- A field that was read is canonical. -/
theorem Field.canonical_of_read {k : Kind} {cs : List Char} {f : Field}
    (h : Field.read k cs = .ok f) : f.IsCanonical k := by
  unfold Field.read at h
  split at h
  next =>
    obtain rfl := Except.ok.inj h
    trivial
  next =>
    split at h
    next =>
      split at h
      next =>
        obtain rfl := Except.ok.inj h
        trivial
      next => simp at h
    next =>
      obtain ⟨read, hread, rfl⟩ := map_eq_ok_iff.mp h
      unfold Field.ofValues
      split
      next => trivial
      next hnot => exact canonical_of_readItems hread hnot

/-! ## Expressions -/

/-- What holds of every expression that was read. -/
structure IsCanonical (e : Cron) : Prop where
  seconds : e.seconds.IsCanonical .second
  minutes : e.minutes.IsCanonical .minute
  hours : e.hours.IsCanonical .hour
  daysOfMonth : e.daysOfMonth.IsCanonical .dayOfMonth
  months : e.months.IsCanonical .month
  daysOfWeek : e.daysOfWeek.IsCanonical .dayOfWeek
  years : e.years.IsCanonical .year
  seconds_of_hidden : e.showsSeconds = false → e.seconds = .only [0] []
  years_of_hidden : e.showsYears = false → e.years = .any
  showsSeconds_of_showsYears : e.showsYears = true → e.showsSeconds = true

theorem canonical_of_readPiece {k : Kind} {p : Piece} {f : Field}
    (h : readPiece k p = .ok f) : f.IsCanonical k :=
  Field.canonical_of_read (mapError_eq_ok_iff.mp h)

theorem canonical_of_readOptional {k : Kind} {absent f : Field}
    (habsent : absent.IsCanonical k) {p : Option Piece}
    (h : readOptional k absent p = .ok f) :
    f.IsCanonical k ∧ (p.isSome = false → f = absent) := by
  cases p with
  | none =>
      obtain rfl := Except.ok.inj h
      exact ⟨habsent, fun _ => rfl⟩
  | some p => exact ⟨canonical_of_readPiece h, by simp⟩

/-- The second 0, which an expression without a field for the seconds has. -/
theorem canonical_zero : (Field.only [0] []).IsCanonical .second :=
  { values_ascend := List.pairwise_singleton _ 0
    mem_values := by decide
    marks_fit := by simp
    marks_nodup := List.nodup_nil
    not_empty := .inl (by simp)
    not_any := by decide }

theorem canonical_of_ofPieces {seconds years : Option Piece}
    {minutes hours daysOfMonth months daysOfWeek : Piece}
    (hshows : years.isSome = true → seconds.isSome = true) {e : Cron}
    (h : ofPieces seconds minutes hours daysOfMonth months daysOfWeek years = .ok e) :
    e.IsCanonical := by
  unfold ofPieces at h
  obtain ⟨_, hseconds, h⟩ := bind_eq_ok_iff.mp h
  obtain ⟨_, hminutes, h⟩ := bind_eq_ok_iff.mp h
  obtain ⟨_, hhours, h⟩ := bind_eq_ok_iff.mp h
  obtain ⟨_, hdaysOfMonth, h⟩ := bind_eq_ok_iff.mp h
  obtain ⟨_, hmonths, h⟩ := bind_eq_ok_iff.mp h
  obtain ⟨_, hdaysOfWeek, h⟩ := bind_eq_ok_iff.mp h
  obtain ⟨_, hyears, h⟩ := bind_eq_ok_iff.mp h
  obtain rfl := pure_eq_ok_iff.mp h
  have hseconds := canonical_of_readOptional canonical_zero hseconds
  have hany : Field.any.IsCanonical .year := trivial
  have hyears := canonical_of_readOptional hany hyears
  exact
    { seconds := hseconds.1
      minutes := canonical_of_readPiece hminutes
      hours := canonical_of_readPiece hhours
      daysOfMonth := canonical_of_readPiece hdaysOfMonth
      months := canonical_of_readPiece hmonths
      daysOfWeek := canonical_of_readPiece hdaysOfWeek
      years := hyears.1
      seconds_of_hidden := hseconds.2
      years_of_hidden := hyears.2
      showsSeconds_of_showsYears := hshows }

theorem canonical_of_readFields {cs : List Char} {e : Cron} (h : readFields cs = .ok e) :
    e.IsCanonical := by
  unfold readFields at h
  split at h
  next => exact canonical_of_ofPieces (by simp) h
  next => exact canonical_of_ofPieces (by simp) h
  next => exact canonical_of_ofPieces (by simp) h
  next => simp at h

theorem canonical_of_parse {text : String} {e : Cron} (h : parse text = .ok e) :
    e.IsCanonical := by
  obtain ⟨cs, hcs⟩ := exists_readFields_of_parse h
  exact canonical_of_readFields hcs

/-! ## What was read can be searched -/

/-- A canonical field other than the two day fields has no marks, so it accepts a value. -/
theorem Field.IsCanonical.proper {k : Kind} (hk : k ≠ .dayOfMonth) (hk' : k ≠ .dayOfWeek)
    {f : Field} (h : f.IsCanonical k) : f.Proper k.greatest := by
  cases f with
  | any => exact ⟨trivial, 0, Nat.zero_le _, rfl⟩
  | only values marks =>
      have h : Canonical k values marks := h
      have hmarks : marks = [] := by
        rw [List.eq_nil_iff_forall_not_mem]
        intro m hm
        have hfits := h.marks_fit m hm
        cases m <;> simp [Mark.Fits, hk, hk'] at hfits
      have hvalues : values ≠ [] := h.not_empty.resolve_right fun hne => hne hmarks
      obtain ⟨v, hv⟩ := List.exists_mem_of_ne_nil values hvalues
      exact ⟨h.values_ascend, v, (Kind.mem_values_iff.mp (h.mem_values v hv)).2,
        List.contains_iff_mem.mpr hv⟩

/-- The fields of an expression that was read are proper. -/
theorem proper_of_parse {text : String} {e : Cron} (h : parse text = .ok e) : e.Proper :=
  have h := canonical_of_parse h
  { seconds := h.seconds.proper (by decide) (by decide)
    minutes := h.minutes.proper (by decide) (by decide)
    hours := h.hours.proper (by decide) (by decide)
    months := h.months.proper (by decide) (by decide)
    years := h.years.proper (by decide) (by decide) }

end Cron
end Timetable
