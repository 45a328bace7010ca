import Timetable.Proofs.Civil.Spelling
import Timetable.Proofs.Rule.Entries

/-!
# Values in different spellings

A value says the same in either case of letters (`Draft.isGivenBy_upper_iff`), and a list says
the same whatever blanks stand around its items (`Draft.isGivenBy_congr_items`).  An equals sign
can only stand in the value of a deadline: `Draft.not_mem_equals_of_isGivenBy`.
-/

namespace Timetable

open Civil
open Text (IsUnsigned IsSigned trim items upper)

variable {cs ds : List Char}

/-! ## Lists -/

/-- Whether the value of a key is a list of items with commas between them. -/
def Key.HasList : Key → Prop
  | .months | .yearDays | .monthDays | .weekdays | .hours | .minutes | .seconds
  | .setPositions => True
  | .frequency | .interval | .deadline | .count | .weekStart => False

section Items

variable {α : Type} {R : List Char → α → Prop} {as : List α}

/-- What the items of a list show does not depend on the case of letters if it does not for
each of them. -/
theorem forall₂_items_upper_iff (h : ∀ item a, R (upper item) a ↔ R item a) :
    List.Forall₂ (fun item a => R (trim item) a) (items (upper cs)) as ↔
      List.Forall₂ (fun item a => R (trim item) a) (items cs) as := by
  rw [Text.items_upper, List.forall₂_map_left_iff]
  simp only [Text.trim_upper, h]

theorem forall₂_items_congr (h : (items cs).map trim = (items ds).map trim) :
    List.Forall₂ (fun item a => R (trim item) a) (items cs) as ↔
      List.Forall₂ (fun item a => R (trim item) a) (items ds) as := by
  rw [← List.forall₂_map_left_iff (R := R) (f := trim), h, List.forall₂_map_left_iff]

/-- A character that no item has stands nowhere in a list. -/
theorem not_mem_of_forall₂_items {c : Char} (hcomma : c ≠ ',') (hblank : Text.isBlank c = false)
    (h : ∀ item a, R item a → c ∉ item)
    (hlist : List.Forall₂ (fun item a => R (trim item) a) (items cs) as) : c ∉ cs := by
  intro hmem
  obtain ⟨item, hitem, hc⟩ := Text.exists_items_mem hcomma hmem
  obtain ⟨a, -, ha⟩ := exists_of_forall₂ hlist.flip hitem
  exact h _ a ha (Text.mem_trim hblank hc)

end Items

/-! ## Weekdays -/

theorem showsSelector_upper_iff {frequency : Frequency} {s : WeekdaySelector} :
    ShowsSelector frequency s (upper cs) ↔ ShowsSelector frequency s cs := by
  constructor
  · intro h
    generalize hupper : upper cs = us at h
    cases h with
    | every hday =>
        rw [← hupper, Text.upper_upper] at hday
        exact .every hday
    | nth hday hnumber hrange hfrequency =>
        obtain ⟨front, back, rfl, rfl, rfl⟩ := List.map_eq_append_iff.mp hupper
        rw [← upper, Text.upper_upper] at hday
        exact .nth hday (Text.isSigned_upper_iff.mp hnumber) hrange hfrequency
  · intro h
    cases h with
    | every hday => exact .every (by rwa [Text.upper_upper])
    | nth hday hnumber hrange hfrequency =>
        rw [Text.upper_append]
        exact .nth (by rwa [Text.upper_upper]) (Text.isSigned_upper_iff.mpr hnumber) hrange
          hfrequency

/-! ## Equals signs -/

theorem not_mem_equals_of_isPlain (h : Text.IsPlain cs) : '=' ∉ cs :=
  fun hmem => absurd (h.2 _ hmem) (by decide)

/-- A name in capitals has no equals sign, so no spelling of it has one. -/
theorem not_mem_equals_of_upper (h : Text.IsPlain (upper cs)) : '=' ∉ cs :=
  fun hmem => not_mem_equals_of_isPlain h ((Text.mem_upper_iff rfl).mpr hmem)

theorem not_mem_equals_of_isSigned {n : Int} (h : IsSigned n cs) : '=' ∉ cs := by
  intro hmem
  rcases h.isDigit_or_eq hmem with h | h | h
  all_goals exact absurd h (by decide)

theorem not_mem_equals_of_isUnsigned {n : Nat} (h : IsUnsigned n cs) : '=' ∉ cs := by
  intro hmem
  rcases h.isDigit_or_eq hmem with h | h
  all_goals exact absurd h (by decide)

theorem not_mem_equals_of_showsSelector {frequency : Frequency} {s : WeekdaySelector}
    (h : ShowsSelector frequency s cs) : '=' ∉ cs := by
  cases h with
  | every hday => exact not_mem_equals_of_upper (hday ▸ Weekday.isPlain_token _)
  | nth hday hnumber _ _ =>
      rw [List.mem_append, not_or]
      exact ⟨not_mem_equals_of_isSigned hnumber,
        not_mem_equals_of_upper (hday ▸ Weekday.isPlain_token _)⟩

/-! ## Values -/

namespace Draft

variable {d : Draft} {key : Key}

/-- A value says the same in either case of letters. -/
theorem isGivenBy_upper_iff : d.IsGivenBy (upper cs) key ↔ d.IsGivenBy cs key := by
  have hlist {range : ValueRange} {ns : List Int} :
      range.ShowsList ns (upper cs) ↔ range.ShowsList ns cs :=
    forall₂_items_upper_iff (R := fun item n => IsSigned n item ∧ range.contains n = true)
      fun _ _ => and_congr_left fun _ => Text.isSigned_upper_iff
  cases key with
  | weekdays =>
      exact forall₂_items_upper_iff (R := fun item s => ShowsSelector d.frequency s item)
        fun _ _ => showsSelector_upper_iff
  | _ =>
      simp only [IsGivenBy, Text.upper_upper, Text.isUnsigned_upper_iff,
        DateTime.ofStamp?_upper, hlist]

/-- A list says the same whatever blanks stand around its items. -/
theorem isGivenBy_congr_items (hkey : key.HasList)
    (h : (items cs).map trim = (items ds).map trim) :
    d.IsGivenBy cs key ↔ d.IsGivenBy ds key := by
  have hlist {range : ValueRange} {ns : List Int} :
      range.ShowsList ns cs ↔ range.ShowsList ns ds :=
    forall₂_items_congr (R := fun item n => IsSigned n item ∧ range.contains n = true) h
  cases key with
  | frequency | interval | deadline | count | weekStart => exact hkey.elim
  | weekdays =>
      exact forall₂_items_congr (R := fun item s => ShowsSelector d.frequency s item) h
  | _ => simp only [IsGivenBy, hlist]

/-- No value but that of a deadline has an equals sign. -/
theorem not_mem_equals_of_isGivenBy (hkey : key ≠ .deadline) (h : d.IsGivenBy cs key) :
    '=' ∉ cs := by
  have hlist {range : ValueRange} {ns : List Int} (h : range.ShowsList ns cs) : '=' ∉ cs :=
    not_mem_of_forall₂_items (by decide) rfl (R := fun item n =>
      IsSigned n item ∧ range.contains n = true)
      (fun _ _ hitem => not_mem_equals_of_isSigned hitem.1) h
  cases key with
  | frequency => exact not_mem_equals_of_upper (h ▸ Frequency.isPlain_token _)
  | weekStart => exact not_mem_equals_of_upper (h ▸ Weekday.isPlain_token _)
  | interval => exact not_mem_equals_of_isUnsigned h.1
  | count =>
      obtain ⟨n, -, hnumber, -⟩ := h
      exact not_mem_equals_of_isUnsigned hnumber
  | deadline => exact absurd rfl hkey
  | yearDays | monthDays => exact hlist h.2
  | weekdays =>
      exact not_mem_of_forall₂_items (by decide) rfl (R := fun item s =>
        ShowsSelector d.frequency s item) (fun _ _ => not_mem_equals_of_showsSelector) h
  | months | hours | minutes | seconds | setPositions => exact hlist h

end Draft
end Timetable
