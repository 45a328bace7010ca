import Timetable.Cron.Parser
import Timetable.Cron.Printer
import Timetable.Proofs.Text.Joining
import Timetable.Proofs.Text.Reading

/-!
# Items of cron fields, written and read

An item of a cron field is a mark or a progression.  `Item.chars` writes it in the way in
which the text of an expression has it, and `Item.read_chars` says that it is read back as
itself.  The digits, letters and signs of an item are visible characters other than the
comma and are their own capitals, so items can stand in a list and a field can stand among
blanks.
-/

namespace Timetable
namespace Cron

open Civil
open Text (decimal unsigned? upper isVisible)

/-! ## Characters of items -/

/-- Whether a character is one of those that items are written with. -/
def isItemChar (c : Char) : Bool :=
  c.isDigit || ['*', '/', '-', '#', 'L', 'W'].contains c

theorem isItemChar_of_isDigit {c : Char} (h : c.isDigit = true) : isItemChar c = true := by
  rw [isItemChar, h, Bool.true_or]

private theorem isItemChar_cases {c : Char} (h : isItemChar c = true) :
    c.isDigit = true ∨ c ∈ ['*', '/', '-', '#', 'L', 'W'] := by
  rwa [isItemChar, Bool.or_eq_true, List.contains_iff_mem] at h

theorem isVisible_of_isItemChar {c : Char} (h : isItemChar c = true) :
    isVisible c = true := by
  have hsigns : ['*', '/', '-', '#', 'L', 'W'].all isVisible = true := by decide
  rcases isItemChar_cases h with hdigit | hmem
  · exact Text.isVisible_of_isDigit hdigit
  · exact List.all_eq_true.mp hsigns c hmem

theorem ne_comma_of_isItemChar {c : Char} (h : isItemChar c = true) : c ≠ ',' := by
  rintro rfl
  exact absurd h (by decide)

theorem toUpper_of_isItemChar {c : Char} (h : isItemChar c = true) : c.toUpper = c := by
  have hsigns : ['*', '/', '-', '#', 'L', 'W'].all (fun c => c.toUpper = c) = true := by decide
  rcases isItemChar_cases h with hdigit | hmem
  · exact Text.toUpper_of_isDigit hdigit
  · exact of_decide_eq_true (List.all_eq_true.mp hsigns c hmem)

theorem isItemChar_of_mem_decimal {n : Nat} {c : Char} (h : c ∈ decimal n) :
    isItemChar c = true :=
  isItemChar_of_isDigit (Text.isDigit_of_mem_decimal h)

/-! ## Values -/

theorem greatestWritten_lt (k : Kind) : k.greatestWritten < Nat.pow 2 16 := by
  cases k <;> decide

theorem greatest_le_greatestWritten (k : Kind) : k.greatest ≤ k.greatestWritten := by
  cases k <;> decide

/-- A number is no name. -/
theorem readName?_decimal (k : Kind) (v : Nat) : k.readName? (decimal v) = none := by
  have hupper : (decimal v).map Char.toUpper = decimal v :=
    Text.upper_eq_self fun _ hc => Text.toUpper_of_isDigit (Text.isDigit_of_mem_decimal hc)
  have hmonth : Month.ofAbbreviation? (decimal v) = none := by
    rw [Month.ofAbbreviation?, List.find?_eq_none, hupper]
    intro m _
    rw [beq_iff_eq]
    cases m <;> exact fun h => Text.decimal_ne_cons (by decide) v _ h.symm
  have hweekday : Weekday.ofAbbreviation? (decimal v) = none := by
    rw [Weekday.ofAbbreviation?, List.find?_eq_none, hupper]
    intro d _
    rw [beq_iff_eq]
    cases d <;> exact fun h => Text.decimal_ne_cons (by decide) v _ h.symm
  cases k <;> simp [Kind.readName?, hmonth, hweekday]

/-- A value that may be written is read back. -/
theorem readValue_decimal {k : Kind} {v : Nat} (hleast : k.least ≤ v)
    (hgreatest : v ≤ k.greatestWritten) : k.readValue (decimal v) = .ok v := by
  have hlt := greatestWritten_lt k
  have hread : unsigned? 16 (decimal v) = some v := by
    rw [Text.unsigned?_decimal, Option.filter_some, if_pos (decide_eq_true (by omega))]
  simp only [Kind.readValue, readName?_decimal, hread]
  rw [if_pos ⟨hleast, hgreatest⟩]

theorem readStep_decimal {n : Nat} (hpos : 0 < n) (hlt : n < Nat.pow 2 16) :
    readStep (decimal n) = .ok n := by
  have hread : unsigned? 16 (decimal n) = some n := by
    rw [Text.unsigned?_decimal, Option.filter_some, if_pos (decide_eq_true hlt)]
  rw [readStep, hread]
  split
  next h => simp at h
  next h =>
    rw [Option.some.injEq] at h
    omega
  next h => rw [Option.some.inj h]

theorem readWeekday_cronNumber (d : Weekday) :
    readWeekday (decimal d.cronNumber) = .ok d := by
  have hle : d.cronNumber ≤ 7 := by
    cases d <;> decide
  have hread : Kind.dayOfWeek.readValue (decimal d.cronNumber) = .ok d.cronNumber :=
    readValue_decimal (Nat.zero_le _) hle
  refine bind_eq_ok_iff.mpr ⟨d.cronNumber, hread, ?_⟩
  rw [Weekday.ofCronNumber?_cronNumber]
  rfl

/-- A small number is read back in eight binary digits. -/
theorem unsigned?_eight {n : Nat} (h : n < 256) : unsigned? 8 (decimal n) = some n := by
  rw [Text.unsigned?_decimal, Option.filter_some, if_pos (decide_eq_true h)]

/-! ## Marks -/

/-- The marks that a kind of field can have. -/
def Mark.Fits (k : Kind) : Mark → Prop
  | .last | .lastWorkday => k = .dayOfMonth
  | .lastMinus n => k = .dayOfMonth ∧ 1 ≤ n ∧ n ≤ 30
  | .nearestWorkday day => k = .dayOfMonth ∧ 1 ≤ day ∧ day ≤ 31
  | .lastOn _ => k = .dayOfWeek
  | .nth _ n => k = .dayOfWeek ∧ 1 ≤ n ∧ n ≤ 5

theorem dropLast?_concat (c : Char) (cs : List Char) : dropLast? c (cs ++ [c]) = some cs := by
  simp [dropLast?]

theorem dropLast?_eq_none {c : Char} {cs : List Char} (h : c ∉ cs) :
    dropLast? c cs = none := by
  rw [dropLast?, if_neg]
  intro hlast
  exact h (List.mem_of_getLast? hlast)

/-- What begins with a digit is read as a mark of the days of the month only if a W ends
it. -/
theorem readMonthDayMark_of_head {c : Char} {cs : List Char} (hc : c ≠ 'L') :
    readMonthDayMark (c :: cs) =
      match dropLast? 'W' (c :: cs) with
      | some day => (Kind.dayOfMonth.readValue day).map fun n => some (.nearestWorkday n)
      | none => .ok none := by
  unfold readMonthDayMark
  split
  next h => exact absurd (List.cons.inj h).1 hc
  next h => exact absurd (List.cons.inj h).1 hc
  next h => exact absurd (List.cons.inj h).1 hc
  next => rfl

private theorem readMonthDayMark_lastMinus {n : Nat} (hpos : 1 ≤ n) (hle : n ≤ 30) :
    readMonthDayMark ('L' :: '-' :: decimal n) = .ok (some (.lastMinus n)) := by
  have hread : unsigned? 8 (decimal n) = some n := unsigned?_eight (by omega)
  unfold readMonthDayMark
  split
  next h => simp at h
  next h => exact absurd (List.cons.inj (List.cons.inj h).2).1 (by decide)
  next offset h =>
    rw [← (List.cons.inj (List.cons.inj h).2).2, hread]
    split
    next hzero =>
      rw [Option.some.injEq] at hzero
      omega
    next m _ hm => rw [← Option.some.inj hm, if_pos hle]
    next hnone => simp at hnone
  next h => exact absurd rfl (h (decimal n))

private theorem readMonthDayMark_nearestWorkday {day : Nat} (hpos : 1 ≤ day) (hle : day ≤ 31) :
    readMonthDayMark (decimal day ++ ['W']) = .ok (some (.nearestWorkday day)) := by
  have hread : Kind.dayOfMonth.readValue (decimal day) = .ok day := readValue_decimal hpos hle
  cases hday : decimal day with
  | nil => exact absurd hday (Text.decimal_ne_nil day)
  | cons c cs =>
      have hdigit : c.isDigit = true := Text.isDigit_of_mem_decimal (hday ▸ List.mem_cons_self)
      have hc : c ≠ 'L' := by
        rintro rfl
        exact absurd hdigit (by decide)
      rw [List.cons_append, readMonthDayMark_of_head hc, ← List.cons_append, dropLast?_concat,
        ← hday]
      dsimp only
      rw [hread]
      rfl

private theorem readWeekdayMark_lastOn (d : Weekday) :
    readWeekdayMark (decimal d.cronNumber ++ ['L']) = .ok (some (.lastOn d)) := by
  have hnone : Text.divideAt? (· == '#') (decimal d.cronNumber ++ ['L']) = none := by
    apply Text.divideAt?_eq_none
    intro c hc
    rcases List.mem_append.mp hc with hc | hc
    · exact Text.beq_of_isDigit (by decide) (Text.isDigit_of_mem_decimal hc)
    · rw [List.mem_singleton.mp hc]
      decide
  have hlong : decimal d.cronNumber ++ ['L'] ≠ ['L'] := by
    intro h
    exact Text.decimal_ne_nil _ (List.append_left_eq_self.mp h)
  simp only [readWeekdayMark, hnone, if_neg hlong, dropLast?_concat, readWeekday_cronNumber]
  rfl

private theorem readWeekdayMark_nth (d : Weekday) {n : Nat} (hpos : 1 ≤ n) (hle : n ≤ 5) :
    readWeekdayMark (decimal d.cronNumber ++ '#' :: decimal n) = .ok (some (.nth d n)) := by
  have hdivide : Text.divideAt? (· == '#') (decimal d.cronNumber ++ '#' :: decimal n) =
      some (decimal d.cronNumber, decimal n) :=
    Text.divideAt?_append_cons (by decide)
      (fun c hc => Text.beq_of_isDigit (by decide) (Text.isDigit_of_mem_decimal hc)) _
  simp only [readWeekdayMark, hdivide, readWeekday_cronNumber,
    unsigned?_eight (show n < 256 by omega)]
  show (if 1 ≤ n ∧ n ≤ 5 then _ else _) = _
  rw [if_pos ⟨hpos, hle⟩]
  rfl

/-- A mark that a field can have is read back. -/
theorem readMark_chars {k : Kind} {m : Mark} (h : m.Fits k) :
    readMark k m.chars = .ok (some m) := by
  cases m with
  | last | lastWorkday =>
      obtain rfl : k = .dayOfMonth := h
      rfl
  | lastMinus n =>
      obtain ⟨rfl, hpos, hle⟩ := h
      exact readMonthDayMark_lastMinus hpos hle
  | nearestWorkday day =>
      obtain ⟨rfl, hpos, hle⟩ := h
      exact readMonthDayMark_nearestWorkday hpos hle
  | lastOn d =>
      obtain rfl : k = .dayOfWeek := h
      exact readWeekdayMark_lastOn d
  | nth d n =>
      obtain ⟨rfl, hpos, hle⟩ := h
      exact readWeekdayMark_nth d hpos hle

/-- The characters one of which is in every mark of a kind of field. -/
def Kind.markSigns : Kind → List Char
  | .dayOfMonth => ['L', 'W']
  | .dayOfWeek => ['L', '#']
  | _ => []

/-- A text without the letters and the sign of marks is none. -/
theorem readMark_eq_none {k : Kind} {cs : List Char} (h : ∀ c ∈ k.markSigns, c ∉ cs) :
    readMark k cs = .ok none := by
  cases k
  case dayOfMonth =>
    have hlast : 'L' ∉ cs := h 'L' (by simp [Kind.markSigns])
    have hwork : 'W' ∉ cs := h 'W' (by simp [Kind.markSigns])
    cases cs with
    | nil => rfl
    | cons c cs =>
        have hc : c ≠ 'L' := by
          rintro rfl
          exact hlast List.mem_cons_self
        show readMonthDayMark (c :: cs) = _
        rw [readMonthDayMark_of_head hc, dropLast?_eq_none hwork]
  case dayOfWeek =>
    have hlast : 'L' ∉ cs := h 'L' (by simp [Kind.markSigns])
    have hnone : Text.divideAt? (· == '#') cs = none :=
      Text.divideAt?_eq_none_of_not_mem (h '#' (by simp [Kind.markSigns]))
    have hlong : cs ≠ ['L'] := by
      rintro rfl
      exact hlast List.mem_cons_self
    show readWeekdayMark cs = _
    simp only [readWeekdayMark, hnone, if_neg hlong, dropLast?_eq_none hlast]
  all_goals rfl

/-! ## Progressions -/

/-- The text of a progression: a star with the step, a value, or a range. -/
def Progression.chars (p : Progression) : List Char :=
  if p.step ≠ 1 then
    '*' :: '/' :: decimal p.step
  else if p.first = p.last then
    decimal p.first
  else
    decimal p.first ++ '-' :: decimal p.last

/-- The progressions that are written: those by steps of one inside the range of a kind,
and those by greater steps through the whole range. -/
def Progression.Fits (k : Kind) (p : Progression) : Prop :=
  k.least ≤ p.first ∧ p.first ≤ p.last ∧ p.last ≤ k.greatest ∧ p.step = 1 ∨
    p.first = k.least ∧ p.last = k.greatest ∧ 2 ≤ p.step ∧ p.step < Nat.pow 2 16

theorem Progression.fits_single {k : Kind} {v : Nat} (hleast : k.least ≤ v)
    (hgreatest : v ≤ k.greatest) : (Progression.mk v v 1).Fits k :=
  .inl ⟨hleast, Nat.le_refl v, hgreatest, rfl⟩

theorem Progression.contains_single {v w : Nat} :
    (Progression.mk v v 1).contains w = true ↔ w = v := by
  simp only [Progression.contains, Bool.and_eq_true, decide_eq_true_eq, Nat.mod_one,
    and_true]
  omega

/-- Steps of one leave nothing of a range out. -/
theorem Progression.contains_range {first last w : Nat} :
    (Progression.mk first last 1).contains w = true ↔ first ≤ w ∧ w ≤ last := by
  simp only [Progression.contains, Bool.and_eq_true, decide_eq_true_eq, Nat.mod_one,
    and_true]

private theorem divideAt?_digits {mark : Char} (hmark : mark.isDigit = false) (n : Nat) :
    Text.divideAt? (· == mark) (decimal n) = none :=
  Text.divideAt?_eq_none fun _ hc =>
    Text.beq_of_isDigit hmark (Text.isDigit_of_mem_decimal hc)

private theorem divideAt?_range (first last : Nat) :
    Text.divideAt? (· == '-') (decimal first ++ '-' :: decimal last) =
      some (decimal first, decimal last) :=
  Text.divideAt?_append_cons (by decide)
    (fun _ hc => Text.beq_of_isDigit (by decide) (Text.isDigit_of_mem_decimal hc)) _

private theorem readProgression_single {k : Kind} {v : Nat} (item : List Char)
    (hread : k.readValue (decimal v) = .ok v) :
    readProgression k item (decimal v) = .ok ⟨v, v, 1⟩ := by
  have hstar : decimal v ≠ ['*'] := Text.decimal_ne_cons (by decide) v []
  rw [readProgression, divideAt?_digits (by decide)]
  show (if decimal v = ['*'] then _ else _) = _
  rw [if_neg hstar, divideAt?_digits (by decide)]
  show (k.readValue (decimal v) >>= fun value => _) = _
  rw [hread]
  rfl

private theorem readProgression_range {k : Kind} {first last : Nat} (item : List Char)
    (hfirst : k.readValue (decimal first) = .ok first)
    (hlast : k.readValue (decimal last) = .ok last) (hle : first ≤ last) :
    readProgression k item (decimal first ++ '-' :: decimal last) =
      .ok ⟨first, last, 1⟩ := by
  have hstar : decimal first ++ '-' :: decimal last ≠ ['*'] := by
    intro h
    have hmem : '-' ∈ decimal first ++ '-' :: decimal last :=
      List.mem_append_right _ List.mem_cons_self
    rw [h] at hmem
    exact absurd hmem (by decide)
  have hslash : Text.divideAt? (· == '/') (decimal first ++ '-' :: decimal last) = none := by
    apply Text.divideAt?_eq_none
    intro c hc
    rw [List.mem_append, List.mem_cons] at hc
    rcases hc with hc | rfl | hc
    · exact Text.beq_of_isDigit (by decide) (Text.isDigit_of_mem_decimal hc)
    · decide
    · exact Text.beq_of_isDigit (by decide) (Text.isDigit_of_mem_decimal hc)
  rw [readProgression, hslash]
  show (if decimal first ++ '-' :: decimal last = ['*'] then _ else _) = _
  rw [if_neg hstar, divideAt?_range]
  show (k.readValue (decimal first) >>= fun first =>
    k.readValue (decimal last) >>= fun last => _) = _
  rw [hfirst, hlast]
  show (if last < first then _ else _) = _
  rw [if_neg (by omega)]
  rfl

private theorem readProgression_star (k : Kind) (item : List Char) {step : Nat}
    (hread : readStep (decimal step) = .ok step) :
    readProgression k item ('*' :: '/' :: decimal step) = .ok ⟨k.least, k.greatest, step⟩ := by
  have hdivide : Text.divideAt? (· == '/') ('*' :: '/' :: decimal step) =
      some (['*'], decimal step) := rfl
  rw [readProgression, hdivide]
  show ((readStep (decimal step)).map (fun n => (['*'], some n)) >>= fun _ => _) = _
  rw [hread]
  rfl

/-- A progression that is written is read back. -/
theorem readProgression_chars {k : Kind} {p : Progression} (h : p.Fits k)
    (item : List Char) : readProgression k item p.chars = .ok p := by
  obtain ⟨first, last, step⟩ := p
  rcases h with ⟨hleast, hle, hgreatest, hstep⟩ | ⟨hfirst, hlast, hstep, hlt⟩
  · dsimp only at hleast hle hgreatest hstep
    subst hstep
    have hread {v : Nat} (hleast : k.least ≤ v) (hgreatest : v ≤ k.greatest) :
        k.readValue (decimal v) = .ok v :=
      readValue_decimal hleast (Nat.le_trans hgreatest (greatest_le_greatestWritten k))
    rw [Progression.chars, if_neg (by simp)]
    by_cases heq : first = last
    · subst heq
      rw [if_pos rfl]
      exact readProgression_single item (hread hleast hgreatest)
    · rw [if_neg heq]
      exact readProgression_range item (hread hleast (Nat.le_trans hle hgreatest))
        (hread (Nat.le_trans hleast hle) hgreatest) hle
  · dsimp only at hfirst hlast hstep hlt
    subst hfirst hlast
    rw [Progression.chars, if_pos (by simp; omega)]
    exact readProgression_star k item (readStep_decimal (show 0 < step by omega) hlt)

theorem isItemChar_of_mem_progression {p : Progression} {c : Char} (h : c ∈ p.chars) :
    isItemChar c = true ∧ c ≠ 'L' ∧ c ≠ 'W' ∧ c ≠ '#' := by
  have hdigit {n : Nat} {c : Char} (hc : c ∈ decimal n) :
      isItemChar c = true ∧ c ≠ 'L' ∧ c ≠ 'W' ∧ c ≠ '#' := by
    have h := Text.isDigit_of_mem_decimal hc
    refine ⟨isItemChar_of_isDigit h, ?_, ?_, ?_⟩
    all_goals
      rintro rfl
      exact absurd h (by decide)
  unfold Progression.chars at h
  split at h
  · rw [List.mem_cons, List.mem_cons] at h
    rcases h with rfl | rfl | hc
    · decide
    · decide
    · exact hdigit hc
  split at h
  · exact hdigit h
  · rw [List.mem_append, List.mem_cons] at h
    rcases h with hc | rfl | hc
    · exact hdigit hc
    · decide
    · exact hdigit hc

/-! ## Items -/

namespace Item

/-- The text of an item. -/
def chars : Item → List Char
  | .mark m => m.chars
  | .progression p => p.chars

/-- The items that are written in a kind of field. -/
def Fits (k : Kind) : Item → Prop
  | .mark m => m.Fits k
  | .progression p => p.Fits k

theorem isItemChar_of_mem_chars {item : Item} {c : Char} (h : c ∈ item.chars) :
    isItemChar c = true := by
  cases item with
  | progression p => exact (isItemChar_of_mem_progression h).1
  | mark m =>
      have hdecimal {n : Nat} {c : Char} (hc : c ∈ decimal n) := isItemChar_of_mem_decimal hc
      cases m <;> simp only [chars, Mark.chars, List.mem_append, List.mem_cons,
        List.not_mem_nil, or_false] at h
      case last => subst h; decide
      case lastWorkday => rcases h with rfl | rfl <;> decide
      case lastMinus =>
        rcases h with rfl | rfl | hc
        · decide
        · decide
        · exact hdecimal hc
      case nearestWorkday =>
        rcases h with hc | rfl
        · exact hdecimal hc
        · decide
      case lastOn =>
        rcases h with hc | rfl
        · exact hdecimal hc
        · decide
      case nth =>
        rcases h with hc | rfl | hc
        · exact hdecimal hc
        · decide
        · exact hdecimal hc

theorem chars_ne_nil (item : Item) : item.chars ≠ [] := by
  cases item with
  | mark m => cases m <;> simp [chars, Mark.chars]
  | progression p =>
      rw [chars, Progression.chars]
      split
      · simp
      split
      · exact Text.decimal_ne_nil _
      · simp

theorem chars_ne_star (item : Item) : item.chars ≠ ['*'] := by
  cases item with
  | mark m =>
      cases m <;> simp [chars, Mark.chars, Text.decimal_ne_nil, List.append_eq_cons_iff]
  | progression p =>
      rw [chars, Progression.chars]
      split
      · simp
      split
      · exact Text.decimal_ne_cons (by decide) _ _
      · simp [Text.decimal_ne_nil, List.append_eq_cons_iff]

/-- An item is read back. -/
theorem read_chars {k : Kind} {item : Item} (h : item.Fits k) :
    Item.read k item.chars = .ok item := by
  have hupper : upper item.chars = item.chars :=
    Text.upper_eq_self fun c hc => toUpper_of_isItemChar (isItemChar_of_mem_chars hc)
  unfold Item.read
  dsimp only
  rw [hupper]
  cases item with
  | mark m =>
      rw [chars, readMark_chars h]
      rfl
  | progression p =>
      have hmark : readMark k p.chars = .ok none := by
        apply readMark_eq_none
        intro c hc hmem
        obtain ⟨-, hlast, hwork, hnth⟩ := isItemChar_of_mem_progression hmem
        cases k <;> simp [Kind.markSigns, hlast, hwork, hnth] at hc
      rw [chars, hmark]
      show (readProgression k p.chars p.chars >>= fun p => pure (Item.progression p)) = _
      rw [readProgression_chars h]
      rfl

end Item

/-- Items are read back one by one, whatever field the faults would show. -/
theorem mapM_read_chars {k : Kind} (field : List Char) {read : List Item}
    (h : ∀ item ∈ read, item.Fits k) :
    (read.map Item.chars).mapM (fun item =>
      if item.isEmpty then .error (.emptyItem (String.ofList field)) else Item.read k item) =
    Except.ok read := by
  induction read with
  | nil => rfl
  | cons item rest ih =>
      rw [List.map_cons, List.mapM_cons, ih fun i hi => h i (List.mem_cons_of_mem item hi),
        if_neg (by simpa using item.chars_ne_nil), Item.read_chars (h item List.mem_cons_self)]
      rfl

/-- Items that were joined by commas are found again. -/
theorem items_intercalate_chars {read : List Item} (hne : read ≠ []) :
    Text.items ([','].intercalate (read.map Item.chars)) = read.map Item.chars := by
  apply List.splitOn_intercalate
  · simp only [List.mem_map]
    rintro _ ⟨item, -, rfl⟩ hmem
    exact ne_comma_of_isItemChar (Item.isItemChar_of_mem_chars hmem) rfl
  · simpa using hne

/-- The items of a list are read back. -/
theorem readItems_intercalate {k : Kind} {read : List Item} (hne : read ≠ [])
    (h : ∀ item ∈ read, item.Fits k) :
    readItems k ([','].intercalate (read.map Item.chars)) = .ok read := by
  rw [readItems, items_intercalate_chars hne]
  exact mapM_read_chars _ h

/-- Every character of a list of items is a comma or belongs to an item. -/
theorem mem_intercalate_chars {read : List Item} {c : Char}
    (h : c ∈ [','].intercalate (read.map Item.chars)) : c = ',' ∨ isItemChar c = true := by
  refine Text.forall_mem_intercalate (P := fun c => c = ',' ∨ isItemChar c = true)
    (.inl rfl) ?_ c h
  simp only [List.mem_map]
  rintro _ ⟨item, -, rfl⟩ d hd
  exact .inr (Item.isItemChar_of_mem_chars hd)

/-- A list of items is neither the star nor the question mark for everything. -/
theorem intercalate_chars_ne {read : List Item} (hne : read ≠ []) :
    [','].intercalate (read.map Item.chars) ≠ ['*'] ∧
      [','].intercalate (read.map Item.chars) ≠ ['?'] := by
  constructor
  · intro hstar
    have hitems := items_intercalate_chars hne
    rw [hstar] at hitems
    have hmem : ['*'] ∈ read.map Item.chars := by
      rw [← hitems]
      exact List.mem_singleton_self _
    obtain ⟨item, -, hitem⟩ := List.mem_map.mp hmem
    exact item.chars_ne_star hitem
  · intro hmark
    rcases mem_intercalate_chars (hmark ▸ List.mem_singleton_self '?') with hc | hc
    · exact absurd hc (by decide)
    · exact absurd hc (by decide)

/-- A list of items is read as the field with their values and marks. -/
theorem Field.read_intercalate {k : Kind} {read : List Item} (hne : read ≠ [])
    (h : ∀ item ∈ read, item.Fits k) :
    Field.read k ([','].intercalate (read.map Item.chars)) =
      .ok (ofValues k (valuesOf k read) (marksOf read)) := by
  obtain ⟨hstar, hmark⟩ := intercalate_chars_ne hne
  rw [Field.read, if_neg hstar, if_neg hmark, readItems_intercalate hne h]
  rfl

/-! ## Texts of several words -/

/-- Whether a text can be a field among blanks: it has characters, and none of them is blank
or the sign of an alias. -/
def IsWord (cs : List Char) : Prop :=
  cs ≠ [] ∧ ∀ c ∈ cs, Text.isBlank c = false ∧ c ≠ '@'

theorem isWord_star : IsWord ['*'] := by
  refine ⟨List.cons_ne_nil _ _, ?_⟩
  simp only [List.mem_singleton, forall_eq]
  decide

theorem isWord_intercalate {read : List Item} (hne : read ≠ []) :
    IsWord ([','].intercalate (read.map Item.chars)) := by
  constructor
  · apply Text.intercalate_ne_nil
    · simpa using hne
    · simp only [List.mem_map]
      rintro _ ⟨item, -, rfl⟩
      exact item.chars_ne_nil
  · intro c hc
    rcases mem_intercalate_chars hc with rfl | hitem
    · decide
    · refine ⟨Text.isBlank_of_isVisible (isVisible_of_isItemChar hitem), ?_⟩
      rintro rfl
      exact absurd hitem (by decide)

variable {fields : List (List Char)}

/-- The words of a text are the fields that it was joined from. -/
theorem chars_words_intercalate (h : ∀ chars ∈ fields, IsWord chars) :
    (Text.words ([' '].intercalate fields)).map Piece.chars = fields :=
  Text.chars_words (fun chars hchars => (h chars hchars).1)
    fun chars hchars c hc => ((h chars hchars).2 c hc).1

/-- What the fields of a text are read as is what the text is read as. -/
theorem parse_intercalate {e : Cron} (hne : fields ≠ [])
    (h : ∀ chars ∈ fields, IsWord chars)
    (hread : readFields ([' '].intercalate fields) = .ok e) :
    parse (String.ofList ([' '].intercalate fields)) = .ok e := by
  have hblank : Text.trim ([' '].intercalate fields) ≠ [] := by
    obtain ⟨chars, hchars⟩ := List.exists_mem_of_ne_nil fields hne
    obtain ⟨c, hc⟩ := List.exists_mem_of_ne_nil chars (h chars hchars).1
    exact List.ne_nil_of_mem (Text.mem_trim ((h chars hchars).2 c hc).1
      (Text.mem_intercalate hchars hc))
  have halias : (Text.trim ([' '].intercalate fields)).head? ≠ some '@' := by
    intro hhead
    have hmem := Text.mem_of_mem_trim (List.mem_of_head? hhead)
    refine Text.forall_mem_intercalate (P := (· ≠ '@')) (by decide) ?_ '@' hmem rfl
    exact fun chars hchars c hc => ((h chars hchars).2 c hc).2
  rw [parse, String.toList_ofList, if_neg (by simpa using hblank), read, if_neg halias, hread]
  rfl

end Cron
end Timetable
