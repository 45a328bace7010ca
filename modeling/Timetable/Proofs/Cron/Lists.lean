import Timetable.Cron.Matching
import Timetable.Proofs.Civil.Calendar
import Timetable.Proofs.Cron.RoundTrip

/-!
# Expressions written as lists

`ItemLists` are the lists of items for six fields, an empty list standing for everything.
Their text is read as the expression with these lists (`parse_chars`), and the expression
matches a datetime whose every component is accepted by an item of its list
(`isMatch_expression_iff`).
-/

namespace Timetable
namespace Cron

open Civil

/-! ## One list -/

/-- The text of a list, a star if it is empty. -/
def listChars (items : List (List Char)) : List Char :=
  if items.isEmpty then ['*'] else [','].intercalate items

/-- The field with the items of a list, everything if the list is empty. -/
def Field.ofItems (k : Kind) (items : List Item) : Field :=
  if items.isEmpty then .any else ofValues k (valuesOf k items) (marksOf items)

/-- Whether an item accepts a value, given what marks stand for. -/
def Item.accepts (stands : Mark → Bool) (v : Nat) : Item → Bool
  | .mark m => stands m
  | .progression p => p.contains v

/-- Whether a list is empty or one of its items accepts a value. -/
def ListAccepts (stands : Mark → Bool) (items : List Item) (v : Nat) : Prop :=
  items = [] ∨ ∃ item ∈ items, item.accepts stands v = true

/-- Whether a field accepts a value, given what marks stand for. -/
def Field.accepts (stands : Mark → Bool) (f : Field) (v : Nat) : Bool :=
  match f with
  | .any => true
  | .only values marks => values.contains v || marks.any stands

variable {k : Kind} {items : List Item} {stands : Mark → Bool} {v : Nat}

theorem isWord_listChars (items : List Item) : IsWord (listChars (items.map Item.chars)) := by
  cases items with
  | nil => exact isWord_star
  | cons item rest => exact isWord_intercalate (List.cons_ne_nil item rest)

/-- The text of a list is read as the field with its items. -/
theorem Field.read_listChars (h : ∀ item ∈ items, item.Fits k) :
    Field.read k (listChars (items.map Item.chars)) = .ok (ofItems k items) := by
  cases items with
  | nil => rfl
  | cons item rest => exact read_intercalate (List.cons_ne_nil item rest) h

/-- A field with the items of a list accepts what the list accepts. -/
theorem Field.accepts_ofItems_iff
    (h : ∀ item ∈ items, item.Fits k) (hv : v ∈ k.values) :
    (ofItems k items).accepts stands v = true ↔ ListAccepts stands items v := by
  have hvalues : v ∈ valuesOf k items ↔
      ∃ p, .progression p ∈ items ∧ p.contains v = true := by
    rw [valuesOf, List.mem_filter, List.any_eq_true]
    constructor
    · rintro ⟨-, item, hitem, hcontains⟩
      cases item with
      | mark m => simp at hcontains
      | progression p =>
          exact ⟨p, hitem, (any_spellings_iff (h _ hitem) hv).mp hcontains⟩
    · rintro ⟨p, hp, hcontains⟩
      exact ⟨hv, _, hp, (any_spellings_iff (h _ hp) hv).mpr hcontains⟩
  have hsplit : (∃ item ∈ items, item.accepts stands v = true) ↔
      v ∈ valuesOf k items ∨ ∃ m ∈ marksOf items, stands m = true := by
    simp only [hvalues, mem_marksOf_iff]
    constructor
    · rintro ⟨item, hitem, haccepts⟩
      cases item with
      | mark m => exact .inr ⟨m, hitem, haccepts⟩
      | progression p => exact .inl ⟨p, hitem, haccepts⟩
    · rintro (⟨p, hp, hcontains⟩ | ⟨m, hm, hstands⟩)
      · exact ⟨_, hp, hcontains⟩
      · exact ⟨_, hm, hstands⟩
  rw [ListAccepts, hsplit, ofItems]
  by_cases hempty : items = []
  · simp [hempty, accepts]
  · rw [if_neg (by simpa using hempty), ofValues]
    split
    next hall =>
      -- A field with all values accepts every value of its kind.
      have hmem : v ∈ valuesOf k items := hall.1 ▸ hv
      simp [accepts, hmem]
    next => simp [accepts, hempty]

theorem Field.contains_eq_accepts (f : Field) (v : Nat) :
    f.contains v = f.accepts (fun _ => false) v := by
  cases f <;> simp [contains, accepts]

theorem Field.acceptsMonthDay_eq_accepts (f : Field) (ym : YearMonth) (day : Nat) :
    f.acceptsMonthDay ym day = f.accepts (·.marksMonthDay ym day) day := by
  cases f <;> rfl

theorem Field.acceptsWeekday_eq_accepts (f : Field) (ym : YearMonth) (day : Nat) :
    f.acceptsWeekday ym day =
      f.accepts (·.marksWeekday ym day) (weekdayIn ym day).cronNumber := by
  cases f <;> rfl

/-! ## Items for the members of a list -/

/-- The item for a single value. -/
def Item.value (v : Nat) : Item :=
  .progression ⟨v, v, 1⟩

theorem Item.chars_value (v : Nat) : (value v).chars = Text.decimal v := by
  rw [value, chars, Progression.chars, if_neg (by simp), if_pos rfl]

theorem Item.accepts_value_iff {w : Nat} : (value w).accepts stands v = true ↔ v = w :=
  Progression.contains_single

theorem Item.fits_value {v : Nat} (hleast : k.least ≤ v) (hgreatest : v ≤ k.greatest) :
    (value v).Fits k :=
  Progression.fits_single hleast hgreatest

/-- What a list accepts whose items stand for the members of another list. -/
theorem listAccepts_map_iff {α : Type} {item : α → Item} {l : List α} :
    ListAccepts stands (l.map item) v ↔
      l = [] ∨ ∃ a ∈ l, (item a).accepts stands v = true := by
  rw [ListAccepts, List.map_eq_nil_iff]
  simp only [List.mem_map, exists_exists_and_eq_and]

theorem listAccepts_value_iff {values : List Nat} :
    ListAccepts stands (values.map Item.value) v ↔ values = [] ∨ v ∈ values := by
  simp only [listAccepts_map_iff, Item.accepts_value_iff, exists_eq_right']

/-! ## Six lists -/

/-- Lists of items for the fields of an expression without years. -/
structure ItemLists where
  seconds : List Item
  minutes : List Item
  hours : List Item
  daysOfMonth : List Item
  months : List Item
  daysOfWeek : List Item

namespace ItemLists

/-- The items are those of their fields. -/
structure Fits (l : ItemLists) : Prop where
  seconds : ∀ item ∈ l.seconds, item.Fits .second
  minutes : ∀ item ∈ l.minutes, item.Fits .minute
  hours : ∀ item ∈ l.hours, item.Fits .hour
  daysOfMonth : ∀ item ∈ l.daysOfMonth, item.Fits .dayOfMonth
  months : ∀ item ∈ l.months, item.Fits .month
  daysOfWeek : ∀ item ∈ l.daysOfWeek, item.Fits .dayOfWeek

/-- The texts of the six fields. -/
def fields (l : ItemLists) : List (List Char) :=
  [l.seconds, l.minutes, l.hours, l.daysOfMonth, l.months, l.daysOfWeek].map fun items =>
    listChars (items.map Item.chars)

/-- The expression with the lists. -/
def expression (l : ItemLists) : Cron :=
  { seconds := .ofItems .second l.seconds
    minutes := .ofItems .minute l.minutes
    hours := .ofItems .hour l.hours
    daysOfMonth := .ofItems .dayOfMonth l.daysOfMonth
    months := .ofItems .month l.months
    daysOfWeek := .ofItems .dayOfWeek l.daysOfWeek
    years := .any
    showsSeconds := true
    showsYears := false }

variable {l : ItemLists}

/-- The text of the lists is read as the expression with them. -/
theorem parse_fields (h : l.Fits) :
    parse (String.ofList ([' '].intercalate l.fields)) = .ok l.expression := by
  have hword : ∀ chars ∈ l.fields, IsWord chars := by
    simp only [fields, List.mem_map]
    rintro _ ⟨items, -, rfl⟩
    exact isWord_listChars items
  apply parse_intercalate (by simp [fields]) hword
  have hwords := chars_words_intercalate hword
  have hread {k : Kind} {items : List Item} (hitems : ∀ item ∈ items, item.Fits k) {p : Piece}
      (hp : p.chars = listChars (items.map Item.chars)) :
      readPiece k p = .ok (Field.ofItems k items) := by
    rw [readPiece, hp, Field.read_listChars hitems]
    rfl
  rw [readFields]
  generalize Text.words ([' '].intercalate l.fields) = ps at hwords
  simp only [fields, List.map_cons, List.map_nil, List.map_eq_cons_iff, List.map_eq_nil_iff]
    at hwords
  obtain ⟨p₀, _, rfl, h₀, p₁, _, rfl, h₁, p₂, _, rfl, h₂, p₃, _, rfl, h₃, p₄, _, rfl, h₄,
    p₅, _, rfl, h₅, rfl⟩ := hwords
  have hseconds : readOptional .second (.only [0] []) (some p₀) =
      .ok (Field.ofItems .second l.seconds) := hread h.seconds h₀
  dsimp only
  rw [ofPieces, hseconds, hread h.minutes h₁, hread h.hours h₂, hread h.daysOfMonth h₃,
    hread h.months h₄, hread h.daysOfWeek h₅]
  rfl

/-- The expression matches the datetimes whose components the lists accept. -/
theorem isMatch_expression_iff (h : l.Fits) {t : DateTime} :
    l.expression.isMatch t = true ↔
      (1970 ≤ t.date.year ∧ t.date.year ≤ 2099) ∧
        ListAccepts (fun _ => false) l.months t.date.month.number ∧
        ListAccepts (·.marksMonthDay t.date.yearMonth t.date.day) l.daysOfMonth t.date.day ∧
        ListAccepts (·.marksWeekday t.date.yearMonth t.date.day) l.daysOfWeek
          (weekdayIn t.date.yearMonth t.date.day).cronNumber ∧
        ListAccepts (fun _ => false) l.hours t.time.hour ∧
        ListAccepts (fun _ => false) l.minutes t.time.minute ∧
        ListAccepts (fun _ => false) l.seconds t.time.second := by
  have hmonth : t.date.month.number ∈ Kind.month.values :=
    Kind.mem_values_iff.mpr ⟨t.date.month.one_le_number, t.date.month.number_le⟩
  have hday : t.date.day ∈ Kind.dayOfMonth.values :=
    Kind.mem_values_iff.mpr
      ⟨t.date.one_le_day, Nat.le_trans t.date.day_le_length (YearMonth.length_le _)⟩
  have hweekday (d : Weekday) : d.cronNumber ∈ Kind.dayOfWeek.values := by
    cases d <;> decide
  have hhour : t.time.hour ∈ Kind.hour.values :=
    Kind.mem_values_iff.mpr ⟨Nat.zero_le _, Nat.le_of_lt_succ t.time.hour_lt⟩
  have hminute : t.time.minute ∈ Kind.minute.values :=
    Kind.mem_values_iff.mpr ⟨Nat.zero_le _, Nat.le_of_lt_succ t.time.minute_lt⟩
  have hsecond : t.time.second ∈ Kind.second.values :=
    Kind.mem_values_iff.mpr ⟨Nat.zero_le _, Nat.le_of_lt_succ t.time.second_lt⟩
  simp only [isMatch, acceptsDay, expression, Field.contains_eq_accepts,
    Field.acceptsMonthDay_eq_accepts, Field.acceptsWeekday_eq_accepts, Bool.and_eq_true,
    decide_eq_true_eq, Field.accepts_ofItems_iff h.months hmonth,
    Field.accepts_ofItems_iff h.daysOfMonth hday,
    Field.accepts_ofItems_iff h.daysOfWeek (hweekday _), Field.accepts_ofItems_iff h.hours hhour,
    Field.accepts_ofItems_iff h.minutes hminute, Field.accepts_ofItems_iff h.seconds hsecond]
  simp only [show (firstYear : Int) = 1970 from rfl, show (lastYear : Int) = 2099 from rfl,
    Field.accepts, true_and, and_assoc]

end ItemLists
end Cron
end Timetable
