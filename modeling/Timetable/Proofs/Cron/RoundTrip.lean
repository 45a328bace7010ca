import Timetable.Proofs.Cron.Canonical
import Timetable.Proofs.Cron.Runs

/-!
# The text of a cron expression is read back

`Field.read_chars` says that the text of a canonical field is read as the same field.  As
what was read is canonical, `parse_text` holds for everything that `parse` accepts: the text
of the expression is read as the expression itself.
-/

namespace Timetable
namespace Cron

open Civil
open Text (words)

/-! ## A canonical field is read back -/

/-- The items as which a field is written. -/
def itemsOf (k : Kind) (values : List Nat) (marks : List Mark) : List Item :=
  (progressionsOf k values).map .progression ++ marks.map .mark

theorem Field.chars_only (k : Kind) (values : List Nat) (marks : List Mark) :
    (Field.only values marks).chars k =
      [','].intercalate ((itemsOf k values marks).map Item.chars) := by
  rw [Field.chars, valueItems_eq_map_chars, itemsOf, List.map_append, List.map_map,
    List.map_map]
  rfl

theorem marksOf_itemsOf {k : Kind} {values : List Nat} {marks : List Mark}
    (h : marks.Nodup) : marksOf (itemsOf k values marks) = marks := by
  rw [marksOf, itemsOf, List.filterMap_append, List.filterMap_map, List.filterMap_map]
  simp [Lists.eraseDups_eq_self h]

namespace Canonical

variable {k : Kind} {values : List Nat} {marks : List Mark}

theorem itemsOf_ne_nil (h : Canonical k values marks) : itemsOf k values marks ≠ [] := by
  rcases h.not_empty with hvalues | hmarks
  · simp [itemsOf, progressionsOf_ne_nil hvalues]
  · simp [itemsOf, hmarks]

theorem fits_of_mem_itemsOf (h : Canonical k values marks) {item : Item}
    (hitem : item ∈ itemsOf k values marks) : item.Fits k := by
  rcases List.mem_append.mp hitem with hitem | hitem
  · obtain ⟨p, hp, rfl⟩ := List.mem_map.mp hitem
    exact fits_of_mem_progressionsOf h.mem_values hp
  · obtain ⟨m, hm, rfl⟩ := List.mem_map.mp hitem
    exact h.marks_fit m hm

end Canonical

/-- The text of a canonical field is read as the field. -/
theorem Field.read_chars {k : Kind} {f : Field} (h : f.IsCanonical k) :
    Field.read k (f.chars k) = .ok f := by
  cases f with
  | any => rfl
  | only values marks =>
      have h : Canonical k values marks := h
      have hvalues : valuesOf k (itemsOf k values marks) = values :=
        valuesOf_progressionsOf h.values_ascend h.mem_values marks
      rw [chars_only, read_intercalate h.itemsOf_ne_nil fun _ => h.fits_of_mem_itemsOf, hvalues,
        marksOf_itemsOf h.marks_nodup, ofValues, if_neg h.not_any]

theorem Field.IsCanonical.isWord_chars {k : Kind} {f : Field} (h : f.IsCanonical k) :
    IsWord (f.chars k) := by
  cases f with
  | any => exact isWord_star
  | only values marks =>
      have h : Canonical k values marks := h
      rw [chars_only]
      exact isWord_intercalate h.itemsOf_ne_nil

/-! ## Expressions -/

theorem readPiece_chars {k : Kind} {f : Field} (h : f.IsCanonical k) {p : Piece}
    (hp : p.chars = f.chars k) : readPiece k p = .ok f := by
  rw [readPiece, hp, Field.read_chars h]
  rfl

namespace IsCanonical

variable {e : Cron}

/-- The fields that a text shows are words. -/
theorem isWord_of_mem_shownFields (h : e.IsCanonical) :
    ∀ chars ∈ e.shownFields, IsWord chars := by
  intro chars hchars
  simp only [shownFields, List.mem_append, List.mem_cons, List.not_mem_nil, or_false] at hchars
  rcases hchars with (hchars | rfl | rfl | rfl | rfl | rfl) | hchars
  · split at hchars
    · rw [List.mem_singleton.mp hchars]
      exact h.seconds.isWord_chars
    · simp at hchars
  · exact h.minutes.isWord_chars
  · exact h.hours.isWord_chars
  · exact h.daysOfMonth.isWord_chars
  · exact h.months.isWord_chars
  · exact h.daysOfWeek.isWord_chars
  · split at hchars
    · rw [List.mem_singleton.mp hchars]
      exact h.years.isWord_chars
    · simp at hchars

theorem ofPieces_eq_ok (h : e.IsCanonical) {seconds years : Option Piece}
    {minutes hours daysOfMonth months daysOfWeek : Piece}
    (hseconds : readOptional .second (.only [0] []) seconds = .ok e.seconds)
    (hminutes : minutes.chars = e.minutes.chars .minute)
    (hhours : hours.chars = e.hours.chars .hour)
    (hdaysOfMonth : daysOfMonth.chars = e.daysOfMonth.chars .dayOfMonth)
    (hmonths : months.chars = e.months.chars .month)
    (hdaysOfWeek : daysOfWeek.chars = e.daysOfWeek.chars .dayOfWeek)
    (hyears : readOptional .year .any years = .ok e.years)
    (hshowsSeconds : seconds.isSome = e.showsSeconds)
    (hshowsYears : years.isSome = e.showsYears) :
    ofPieces seconds minutes hours daysOfMonth months daysOfWeek years = .ok e := by
  rw [ofPieces, hseconds, hyears, readPiece_chars h.minutes hminutes,
    readPiece_chars h.hours hhours, readPiece_chars h.daysOfMonth hdaysOfMonth,
    readPiece_chars h.months hmonths, readPiece_chars h.daysOfWeek hdaysOfWeek,
    hshowsSeconds, hshowsYears]
  rfl

/-- The five to seven fields of a text are read as they were. -/
theorem readFields_shownFields (h : e.IsCanonical) :
    readFields ([' '].intercalate e.shownFields) = .ok e := by
  have hwords := chars_words_intercalate h.isWord_of_mem_shownFields
  rw [readFields]
  generalize words ([' '].intercalate e.shownFields) = ps at hwords
  have hread {k : Kind} {f absent : Field} (hf : f.IsCanonical k) {p : Piece}
      (hp : p.chars = f.chars k) : readOptional k absent (some p) = .ok f :=
    readPiece_chars hf hp
  have hzero (hhidden : e.showsSeconds = false) :
      readOptional .second (.only [0] []) none = .ok e.seconds := by
    rw [h.seconds_of_hidden hhidden]
    rfl
  have hany (hhidden : e.showsYears = false) :
      readOptional .year .any none = .ok e.years := by
    rw [h.years_of_hidden hhidden]
    rfl
  unfold shownFields at hwords
  -- The text shows five, six or seven fields; seven only with the seconds among them.
  cases hseconds : e.showsSeconds <;> cases hyears : e.showsYears
  case false.true => exact absurd (h.showsSeconds_of_showsYears hyears) (by simp [hseconds])
  all_goals
    simp only [hseconds, hyears, Bool.false_eq_true, if_true, if_false, List.nil_append,
      List.cons_append, List.append_nil, List.map_eq_cons_iff, List.map_eq_nil_iff] at hwords
  case false.false =>
    obtain ⟨p₁, _, rfl, h₁, p₂, _, rfl, h₂, p₃, _, rfl, h₃, p₄, _, rfl, h₄, p₅, _, rfl, h₅,
      rfl⟩ := hwords
    exact h.ofPieces_eq_ok (hzero hseconds) h₁ h₂ h₃ h₄ h₅ (hany hyears) hseconds.symm
      hyears.symm
  case true.false =>
    obtain ⟨p₀, _, rfl, h₀, p₁, _, rfl, h₁, p₂, _, rfl, h₂, p₃, _, rfl, h₃, p₄, _, rfl, h₄,
      p₅, _, rfl, h₅, rfl⟩ := hwords
    exact h.ofPieces_eq_ok (hread h.seconds h₀) h₁ h₂ h₃ h₄ h₅ (hany hyears) hseconds.symm
      hyears.symm
  case true.true =>
    obtain ⟨p₀, _, rfl, h₀, p₁, _, rfl, h₁, p₂, _, rfl, h₂, p₃, _, rfl, h₃, p₄, _, rfl, h₄,
      p₅, _, rfl, h₅, p₆, _, rfl, h₆, rfl⟩ := hwords
    exact h.ofPieces_eq_ok (hread h.seconds h₀) h₁ h₂ h₃ h₄ h₅ (hread h.years h₆)
      hseconds.symm hyears.symm

/-- The text of a canonical expression is read as the expression. -/
theorem parse_text (h : e.IsCanonical) : parse e.text = .ok e := by
  have hne : e.shownFields ≠ [] := by simp [shownFields]
  exact parse_intercalate hne h.isWord_of_mem_shownFields h.readFields_shownFields

end IsCanonical

/-- Whatever text an expression was read from, its own text is read as the same
expression. -/
theorem parse_text_of_parse {text : String} {e : Cron} (h : parse text = .ok e) :
    parse e.text = .ok e :=
  (canonical_of_parse h).parse_text

/-- Twice a minute on some Sundays and Fridays and at month ends from 2030 on. -/
def scatteredDays : Cron :=
  { seconds := .only [0, 30] [], minutes := .any, hours := .only [9, 13, 17] []
    daysOfMonth := .only [1, 2, 3] [.lastMinus 2, .nearestWorkday 15]
    months := .only [1, 2, 3] [], daysOfWeek := .only [0] [.nth .friday 2, .lastOn .sunday]
    years := .only [2030, 2040, 2050, 2060, 2070, 2080, 2090] []
    showsSeconds := true, showsYears := true }

theorem scatteredDays_read_back :
    parse "0,30 0-59 9-17/4 1-3,L-2,15w,L-2 MAR,feb,1 7,fri#2,0L 2030/10" =
        .ok scatteredDays ∧
      scatteredDays.text =
        "*/30 * 9,13,17 1-3,L-2,15W 1-3 0,5#2,0L 2030,2040,2050,2060,2070,2080,2090" ∧
      parse scatteredDays.text = .ok scatteredDays := by
  have hread : parse "0,30 0-59 9-17/4 1-3,L-2,15w,L-2 MAR,feb,1 7,fri#2,0L 2030/10" =
      .ok scatteredDays := by rfl
  exact ⟨hread, by rfl, parse_text_of_parse hread⟩

end Cron
end Timetable
