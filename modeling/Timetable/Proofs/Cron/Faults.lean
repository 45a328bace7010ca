import Timetable.Cron.Parser
import Timetable.Proofs.Cron.Grammar
import Timetable.Proofs.Text.Pieces

/-!
# The field at fault

A text that is not a cron expression is an alias that nobody knows, or it has a number of
words for which there are no fields, or one of its words is no field of its kind.  The words
are read from left to right, so the first such word is at fault: `IsAtFault`.

`read_eq_error` says that a fault comes with the byte range of that word, and with the range of
the whole text in the other two cases.
-/

namespace Timetable
namespace Cron

open Text (items trim lower upper words byteLength)

/-! ## What is asked of a text -/

/-- Whether a text is a field of a kind: a star, a question mark where it may stand, or items
with commas between them. -/
def ShowsField (k : Kind) (cs : List Char) : Prop :=
  cs = ['*'] ∨ cs = ['?'] ∧ (k = .dayOfMonth ∨ k = .dayOfWeek) ∨
    ∀ text ∈ items cs, text ≠ [] ∧ ∃ item, ShowsItem k item (upper text)

/-- The kind of field that each word of an expression is, if the number of words is right. -/
def fieldsOf? : List Piece → Option (List (Kind × Piece))
  | [minutes, hours, daysOfMonth, months, daysOfWeek] =>
      some [(.minute, minutes), (.hour, hours), (.dayOfMonth, daysOfMonth), (.month, months),
        (.dayOfWeek, daysOfWeek)]
  | [seconds, minutes, hours, daysOfMonth, months, daysOfWeek] =>
      some [(.second, seconds), (.minute, minutes), (.hour, hours), (.dayOfMonth, daysOfMonth),
        (.month, months), (.dayOfWeek, daysOfWeek)]
  | [seconds, minutes, hours, daysOfMonth, months, daysOfWeek, years] =>
      some [(.second, seconds), (.minute, minutes), (.hour, hours), (.dayOfMonth, daysOfMonth),
        (.month, months), (.dayOfWeek, daysOfWeek), (.year, years)]
  | _ => none

/-- Whether a text begins as an alias does, and is none. -/
def IsUnknownAlias (cs : List Char) : Prop :=
  (trim cs).head? = some '@' ∧ ∀ entry ∈ aliases, entry.1.toList ≠ lower (trim cs)

/-- Whether a word is the first one that is no field of its kind among all words of a text. -/
def IsAtFault (ws : List Piece) (p : Piece) : Prop :=
  ∃ before k after, fieldsOf? ws = some (before ++ (k, p) :: after) ∧
    (∀ field ∈ before, ShowsField field.1 field.2.chars) ∧ ¬ ShowsField k p.chars

theorem IsAtFault.mem {ws : List Piece} {p : Piece} (h : IsAtFault ws p) : p ∈ ws := by
  obtain ⟨before, k, after, hfields, -⟩ := h
  have hwords {fields : List (Kind × Piece)} (h : fieldsOf? ws = some fields) :
      fields.map Prod.snd = ws := by
    unfold fieldsOf? at h
    split at h
    case h_4 => simp at h
    all_goals simp [← Option.some.inj h]
  rw [← hwords hfields]
  simp

/-! ## What the reader reports -/

variable {k : Kind} {cs : List Char} {e : Located Fault}

/-- A text is read as a field if and only if it is one. -/
theorem exists_read_iff_showsField :
    (∃ f, Field.read k cs = .ok f) ↔ ShowsField k cs := by
  rw [ShowsField]
  by_cases hstar : cs = ['*']
  · subst hstar
    exact iff_of_true ⟨.any, rfl⟩ (.inl rfl)
  rw [or_iff_right hstar]
  by_cases hquestion : cs = ['?']
  · subst hquestion
    have hitem : ¬ ∀ text ∈ items ['?'], text ≠ [] ∧ ∃ item, ShowsItem k item (upper text) := by
      intro h
      obtain ⟨-, item, hitem⟩ := h ['?'] (by decide)
      exact Field.not_showsItem_question k item hitem
    rw [or_iff_left hitem, Field.read, if_neg (by decide), if_pos rfl]
    cases k <;> simp [Kind.allowsQuestionMark]
  · rw [or_iff_right fun h => hquestion h.1]
    simp only [Field.read_eq_ok_iff_of_ne hstar hquestion, ← exists_and_left]
    rw [← exists_forall₂_iff]
    constructor
    · rintro ⟨-, read, hread, -⟩
      exact ⟨read, hread⟩
    · rintro ⟨read, hread⟩
      exact ⟨_, read, hread, rfl⟩

theorem exists_readPiece_iff {p : Piece} :
    (∃ f, readPiece k p = .ok f) ↔ ShowsField k p.chars := by
  simp only [readPiece, mapError_eq_ok_iff, exists_read_iff_showsField]

/-- A fault of a word is that it is no field of its kind. -/
theorem not_showsField_of_readPiece {p : Piece} (h : readPiece k p = .error e) :
    ¬ ShowsField k p.chars ∧ e.span = p.span := by
  rw [← exists_readPiece_iff]
  constructor
  · rintro ⟨f, hf⟩
    rw [hf] at h
    contradiction
  · obtain ⟨fault, -, rfl⟩ := mapError_eq_error_iff.mp h
    rfl

/-- Read fields one after the other. -/
def readEach (fields : List (Kind × Piece)) : Except (Located Fault) (List Field) :=
  fields.mapM fun field => readPiece field.1 field.2

theorem ofPieces_eq_error_iff (seconds : Option Piece)
    (minutes hours daysOfMonth months daysOfWeek : Piece) (years : Option Piece) :
    ofPieces seconds minutes hours daysOfMonth months daysOfWeek years = .error e ↔
      readEach (seconds.toList.map (Kind.second, ·) ++
        [(.minute, minutes), (.hour, hours), (.dayOfMonth, daysOfMonth), (.month, months),
          (.dayOfWeek, daysOfWeek)] ++ years.toList.map (Kind.year, ·)) = .error e := by
  cases seconds <;> cases years <;>
    simp [ofPieces, readOptional, readEach, bind_eq_error_iff, pure, Except.pure]

/-- An expression has the faults of its fields, and a wrong number of words is one. -/
theorem readFields_eq_error_iff :
    readFields cs = .error e ↔
      match fieldsOf? (words cs) with
      | some fields => readEach fields = .error e
      | none => ⟨.wrongFieldCount (words cs).length, ⟨0, byteLength cs⟩⟩ = e := by
  rw [readFields]
  generalize words cs = ws
  split
  · exact ofPieces_eq_error_iff none _ _ _ _ _ none
  · exact ofPieces_eq_error_iff (some _) _ _ _ _ _ none
  · exact ofPieces_eq_error_iff (some _) _ _ _ _ _ (some _)
  next h₅ h₆ h₇ => simp only [fieldsOf?, Except.error.injEq]

/-- A fault of the fields is a wrong number of words, or it lies at the word at fault. -/
theorem readFields_eq_error (h : readFields cs = .error e) :
    fieldsOf? (words cs) = none ∧ e.span = ⟨0, byteLength cs⟩ ∨
      ∃ p, IsAtFault (words cs) p ∧ e.span = p.span := by
  rw [readFields_eq_error_iff] at h
  cases hfields : fieldsOf? (words cs) with
  | none =>
      simp only [hfields] at h
      exact .inl ⟨rfl, by rw [← h]⟩
  | some fields =>
      simp only [hfields] at h
      obtain ⟨before, ⟨k, p⟩, after, rfl, hbefore, hp⟩ := exists_of_mapM_eq_error h
      obtain ⟨hfault, hspan⟩ := not_showsField_of_readPiece hp
      exact .inr ⟨p, ⟨before, k, after, hfields,
        fun field hfield => exists_readPiece_iff.mp (hbefore field hfield), hfault⟩, hspan⟩

/-- Every alias stands for fields. -/
theorem exists_readFields_of_mem_aliases {entry : String × String} (h : entry ∈ aliases) :
    ∃ c, readFields entry.2.toList = .ok c := by
  simp only [aliases, List.mem_cons, List.not_mem_nil, or_false] at h
  rcases h with rfl | rfl | rfl | rfl | rfl | rfl | rfl <;> exact ⟨_, rfl⟩

/-- A fault in a text comes with the byte range of the word at fault, or with that of the text
if it is taken as a whole. -/
theorem read_eq_error (h : read cs = .error e) :
    ∃ ws, Text.ListsAll (Text.IsWord cs) ws ∧
      ((IsUnknownAlias cs ∨ fieldsOf? ws = none) ∧ e.span = ⟨0, byteLength cs⟩ ∨
        (trim cs).head? ≠ some '@' ∧ ∃ p, IsAtFault ws p ∧ e.span = p.span) := by
  refine ⟨_, Text.listsAll_words cs, ?_⟩
  rw [read] at h
  split at h
  next halias =>
    split at h
    next entry hentry =>
      obtain ⟨c, hc⟩ := exists_readFields_of_mem_aliases (List.mem_of_find?_eq_some hentry)
      rw [hc] at h
      contradiction
    next hnone =>
      rw [List.find?_eq_none] at hnone
      refine .inl ⟨.inl ⟨halias, fun entry hentry heq => ?_⟩, by rw [← Except.error.inj h]⟩
      exact hnone entry hentry (beq_iff_eq.mpr heq)
  next halias =>
    rcases readFields_eq_error h with ⟨hcount, hspan⟩ | hfault
    · exact .inl ⟨.inr hcount, hspan⟩
    · exact .inr ⟨halias, hfault⟩

/-- A text is refused as a whole if it is blank, and with the fault that was read if not. -/
theorem parse_eq_error_iff {text : String} {d : Diagnostic} :
    parse text = .error d ↔
      trim text.toList = [] ∧ .argument "cron expression is empty" = d ∨
        trim text.toList ≠ [] ∧ ∃ e, read text.toList = .error e ∧
          .cron e.value.message ⟨e.span, text⟩ = d := by
  rw [parse]
  by_cases hblank : trim text.toList = []
  · simp [hblank]
  · simp [hblank, mapError_eq_error_iff]

end Cron
end Timetable
