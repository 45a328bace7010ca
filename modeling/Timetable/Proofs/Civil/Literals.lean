import Mathlib.Data.List.Flatten
import Timetable.Proofs.Civil.Stamp
import Timetable.Proofs.Text.Bytes

/-!
# Which texts are timestamp literals

`DateTime.IsLiteral` says what a literal of a datetime is: the date, a T and the time, and a
Z, where the time and the Z may be left out.  A date has a year of four digits, a month and a
day of two, with hyphens or without; a time has one to three numbers of two digits, with
colons or without.

The reader takes all literals, but it also takes other texts.  In a time without colons it
passes over the pairs of bytes that do not begin and end between two characters, and reads
what is left (`ofStamp?_eq_some_iff_heard`).  So it reads exactly the literals of a text if
nothing is passed over there, or if what is left is no literal either:
`ofStamp?_reads_literals_iff`.
-/

namespace Timetable

/-! ## Parts joined by a mark or by nothing -/

namespace Text

theorem nil_intercalate (parts : List (List Char)) :
    ([] : List Char).intercalate parts = parts.flatten := by
  induction parts with
  | nil => rfl
  | cons part rest ih =>
      cases rest with
      | nil => simp
      | cons next rest =>
          rw [List.intercalate_cons_cons, ih, List.append_nil]
          rfl

/-- If joining parts by a mark leaves no mark, then there is no place for one. -/
theorem intercalate_eq_flatten {mark : Char} {parts : List (List Char)}
    (h : mark ∉ [mark].intercalate parts) : [mark].intercalate parts = parts.flatten := by
  cases parts with
  | nil => rfl
  | cons part rest =>
      cases rest with
      | nil => simp
      | cons next rest => simp [List.intercalate_cons_cons] at h

end Text

namespace Civil

open Text (padded digits? divideAt? byteLength)

/-! ## The form of literals -/

/-- Whether a text is the date of a literal: the year in four digits, the month and the day in
two, with hyphens between them or without. -/
def Date.IsWritten (d : Date) (cs : List Char) : Prop :=
  0 ≤ d.year ∧ ∃ mark, (mark = [] ∨ mark = ['-']) ∧
    cs = mark.intercalate [padded 4 d.year.toNat, padded 2 d.month.number, padded 2 d.day]

/-- Whether a time is given by one to three numbers: the hour, the minute and the second.
Numbers that are left out are zero, and the second 60 stands for 59. -/
def Time.IsGivenBy (t : Time) : List Nat → Prop
  | [hour] => t.hour = hour ∧ t.minute = 0 ∧ t.second = 0 ∧ t.nanosecond = 0
  | [hour, minute] => t.hour = hour ∧ t.minute = minute ∧ t.second = 0 ∧ t.nanosecond = 0
  | [hour, minute, second] =>
      t.hour = hour ∧ t.minute = minute ∧ (t.second = second ∨ t.second = 59 ∧ second = 60) ∧
        t.nanosecond = 0
  | _ => False

/-- Numbers that give a time have two digits at most. -/
theorem Time.IsGivenBy.ne_nil_and_lt {t : Time} {numbers : List Nat} (h : t.IsGivenBy numbers) :
    numbers ≠ [] ∧ ∀ n ∈ numbers, n < 100 := by
  have hhour := t.hour_lt
  have hminute := t.minute_lt
  have hsecond := t.second_lt
  unfold Time.IsGivenBy at h
  split at h
  next => simp; omega
  next => simp; omega
  next => simp; omega
  next => exact h.elim

/-- Whether a text is the time of a literal: numbers of two digits that give the time, with
colons between them or without. -/
def Time.IsWritten (t : Time) (cs : List Char) : Prop :=
  ∃ numbers mark, t.IsGivenBy numbers ∧ (mark = [] ∨ mark = [':']) ∧
    cs = mark.intercalate (numbers.map (padded 2))

namespace DateTime

/-- Whether a text is a literal of a datetime without a closing Z. -/
def IsPlainLiteral (t : DateTime) (cs : List Char) : Prop :=
  t.date.IsWritten cs ∧ t.time = Time.midnight ∨
    ∃ date mark time, t.date.IsWritten date ∧ (mark = 'T' ∨ mark = 't') ∧
      t.time.IsWritten time ∧ cs = date ++ mark :: time

/-- Whether a text is a literal of a datetime. -/
def IsLiteral (t : DateTime) (cs : List Char) : Prop :=
  ∃ plain zone, t.IsPlainLiteral plain ∧ zone ∈ [[], ['Z'], ['z']] ∧ cs = plain ++ zone

/-! ## Dates -/

/-- A date is written with digits and hyphens. -/
theorem isDigit_or_eq_of_isWritten {d : Date} {cs : List Char} (h : d.IsWritten cs) {c : Char}
    (hc : c ∈ cs) : c.isDigit = true ∨ c = '-' := by
  obtain ⟨-, mark, hmark, rfl⟩ := h
  have hdigits : ∀ part ∈ [padded 4 d.year.toNat, padded 2 d.month.number, padded 2 d.day],
      ∀ c ∈ part, c.isDigit = true ∨ c = '-' := by
    simp only [List.forall_mem_cons]
    exact ⟨fun _ h => .inl (Text.isDigit_of_mem_padded h),
      fun _ h => .inl (Text.isDigit_of_mem_padded h),
      fun _ h => .inl (Text.isDigit_of_mem_padded h), by simp⟩
  rcases hmark with rfl | rfl
  · rw [Text.nil_intercalate, List.mem_flatten] at hc
    obtain ⟨part, hpart, hc⟩ := hc
    exact hdigits part hpart c hc
  · exact Text.forall_mem_intercalate (.inr rfl) hdigits c hc

theorem readStampDate?_eq_some_iff {cs : List Char} {year month day : Nat} :
    readStampDate? cs = some (year, month, day) ↔
      (year < 10000 ∧ month < 100 ∧ day < 100) ∧ ∃ mark, (mark = [] ∨ mark = ['-']) ∧
        cs = mark.intercalate [padded 4 year, padded 2 month, padded 2 day] := by
  have hfour {a b c d : Char} {n : Nat} :
      digits? [a, b, c, d] = some n ↔ [a, b, c, d] = padded 4 n ∧ n < 10000 :=
    Text.digits?_eq_some_iff_eq_padded (by decide) rfl
  have htwo {a b : Char} {n : Nat} :
      digits? [a, b] = some n ↔ [a, b] = padded 2 n ∧ n < 100 :=
    Text.digits?_eq_some_iff_eq_padded (by decide) rfl
  constructor
  · intro h
    unfold readStampDate? at h
    split at h
    case h_3 => simp at h
    all_goals
      simp only [Option.bind_eq_bind, Option.bind_eq_some_iff, Option.pure_def, Option.some.injEq,
        Prod.mk.injEq, hfour, htwo] at h
      obtain ⟨_, ⟨hyear, hyear'⟩, _, ⟨hmonth, hmonth'⟩, _, ⟨hday, hday'⟩, rfl, rfl, rfl⟩ := h
      refine ⟨⟨hyear', hmonth', hday'⟩, ?_⟩
      rw [← hyear, ← hmonth, ← hday]
    · exact ⟨[], .inl rfl, rfl⟩
    · exact ⟨['-'], .inr rfl, rfl⟩
  · rintro ⟨⟨hyear, hmonth, hday⟩, mark, hmark, rfl⟩
    obtain ⟨y₁, y₂, y₃, y₄, hy⟩ := padded_four hyear
    obtain ⟨m₁, m₂, hm⟩ := padded_two hmonth
    obtain ⟨d₁, d₂, hd⟩ := padded_two hday
    have hread : (do return (← digits? [y₁, y₂, y₃, y₄], ← digits? [m₁, m₂],
        ← digits? [d₁, d₂])) = some (year, month, day) := by
      rw [← hy, ← hm, ← hd, Text.digits?_padded, Text.digits?_padded, Text.digits?_padded]
      rfl
    rw [hy, hm, hd]
    rcases hmark with rfl | rfl
    · exact hread
    · exact hread

/-- A date is read from the texts that it is written as. -/
theorem exists_readStampDate?_iff {cs : List Char} {d : Date} :
    (∃ year month day, readStampDate? cs = some (year, month, day) ∧
        d.year = (year : Int) ∧ d.month.number = month ∧ d.day = day) ↔ d.IsWritten cs := by
  simp only [readStampDate?_eq_some_iff]
  constructor
  · rintro ⟨year, _, _, ⟨-, mark, hmark, rfl⟩, hyear, rfl, rfl⟩
    refine ⟨by omega, mark, hmark, ?_⟩
    rw [hyear, Int.toNat_natCast]
  · rintro ⟨hyear, mark, hmark, rfl⟩
    have hlast := d.year_le
    have hmonth := d.month.number_le
    have hday := d.day_le_length
    have hlength : d.yearMonth.length ≤ 31 := YearMonth.length_le _
    exact ⟨_, _, _, ⟨⟨by omega, by omega, by omega⟩, mark, hmark, rfl⟩,
      (Int.toNat_of_nonneg hyear).symm, rfl, rfl⟩

/-! ## Times -/

theorem readTwoDigits?_eq_some_iff {cs : List Char} {n : Nat} :
    readTwoDigits? cs = some n ↔ cs = padded 2 n ∧ n < 100 := by
  constructor
  · intro h
    unfold readTwoDigits? at h
    split at h
    next hlength => exact (Text.digits?_eq_some_iff_eq_padded (by decide) hlength).mp h
    next => simp at h
  · rintro ⟨rfl, hlt⟩
    rw [readTwoDigits?, if_pos (Text.length_padded (by decide) hlt), Text.digits?_padded]

theorem mapM_readTwoDigits?_eq_some_iff {pieces : List (List Char)} {numbers : List Nat} :
    pieces.mapM readTwoDigits? = some numbers ↔
      pieces = numbers.map (padded 2) ∧ ∀ n ∈ numbers, n < 100 := by
  induction pieces generalizing numbers with
  | nil =>
      simp only [List.mapM_nil, Option.pure_def, Option.some.injEq, @eq_comm _ [],
        List.map_eq_nil_iff]
      exact ⟨fun h => ⟨h, by simp [h]⟩, fun h => h.1⟩
  | cons p ps ih =>
      simp only [List.mapM_cons, Option.bind_eq_bind, Option.bind_eq_some_iff, Option.pure_def,
        Option.some.injEq, readTwoDigits?_eq_some_iff, ih]
      constructor
      · rintro ⟨n, ⟨rfl, hn⟩, rest, ⟨rfl, hrest⟩, rfl⟩
        exact ⟨rfl, List.forall_mem_cons.mpr ⟨hn, hrest⟩⟩
      · rintro ⟨hpieces, hlt⟩
        cases numbers with
        | nil => simp at hpieces
        | cons n rest =>
            obtain ⟨hn, hrest⟩ := List.forall_mem_cons.mp hlt
            obtain ⟨rfl, rfl⟩ := List.cons.inj hpieces
            exact ⟨n, ⟨rfl, hn⟩, rest, ⟨rfl, hrest⟩, rfl⟩

/-- The pieces of a time that should be numbers of two digits. -/
def timePieces? (cs : List Char) : Option (List (List Char)) :=
  if cs.contains ':' then
    some (cs.splitOn ':')
  else if byteLength cs % 2 = 0 then
    some (bytePairs cs)
  else
    none

/-- The hour, the minute and the second that one to three numbers are taken for. -/
def clock? : List Nat → Option (Nat × Nat × Nat)
  | [hour] => some (hour, 0, 0)
  | [hour, minute] => some (hour, minute, 0)
  | [hour, minute, second] => some (hour, minute, second)
  | _ => none

theorem readStampTime?_eq_bind (cs : List Char) :
    readStampTime? cs =
      (timePieces? cs).bind fun pieces => (pieces.mapM readTwoDigits?).bind clock? := by
  unfold readStampTime? timePieces?
  split
  next => rfl
  next =>
    split
    next => rfl
    next => rfl

/-- The numbers that a time is given by are those that it is read from. -/
theorem exists_clock?_iff {numbers : List Nat} {t : Time} :
    (∃ hour minute second, clock? numbers = some (hour, minute, second) ∧
        Time.ofClock? hour minute (if second = 60 then 59 else second) 0 = some t) ↔
      t.IsGivenBy numbers := by
  have hsecond := t.second_lt
  simp only [Time.ofClock?_eq_some_iff]
  unfold clock? Time.IsGivenBy
  split
  next hour =>
    constructor
    · rintro ⟨_, _, _, ⟨⟩, hgiven⟩
      exact hgiven
    · exact fun hgiven => ⟨_, _, _, rfl, hgiven⟩
  next hour minute =>
    constructor
    · rintro ⟨_, _, _, ⟨⟩, hgiven⟩
      exact hgiven
    · exact fun hgiven => ⟨_, _, _, rfl, hgiven⟩
  next hour minute second =>
    constructor
    · rintro ⟨_, _, _, ⟨⟩, hhour, hminute, hgiven, hwhole⟩
      refine ⟨hhour, hminute, ?_, hwhole⟩
      -- A second of 60 is read as 59, so 59 is given by both.
      split at hgiven
      next hsixty => exact .inr ⟨hgiven, hsixty⟩
      next => exact .inl hgiven
    · rintro ⟨hhour, hminute, hgiven, hwhole⟩
      refine ⟨_, _, _, rfl, hhour, hminute, ?_, hwhole⟩
      split
      next => omega
      next => omega
  next => simp

/-- What the reader of times hears: of a text without colons only the pairs of bytes that begin
and end between two characters. -/
def heardTime (cs : List Char) : List Char :=
  if cs.contains ':' ∨ byteLength cs % 2 ≠ 0 then cs else (bytePairs cs).flatten

theorem byteLength_and_mem_of_mem_bytePairs {cs pair : List Char} (h : pair ∈ bytePairs cs) :
    byteLength pair = 2 ∧ ∀ c ∈ pair, c ∈ cs := by
  obtain ⟨i, -, hslice⟩ := List.mem_filterMap.mp h
  obtain ⟨before, after, rfl, hstart, hstop⟩ := Text.slice?_eq_some_iff.mp hslice
  exact ⟨by omega, fun c hc => by simp [hc]⟩

/-- Only characters of the text are heard. -/
theorem mem_of_mem_heardTime {cs : List Char} {c : Char} (h : c ∈ heardTime cs) : c ∈ cs := by
  unfold heardTime at h
  split at h
  next => exact h
  next =>
    obtain ⟨pair, hpair, hc⟩ := List.mem_flatten.mp h
    exact (byteLength_and_mem_of_mem_bytePairs hpair).2 c hc

theorem isDigit_of_mem_numbers {numbers : List Nat} {part : List Char}
    (hpart : part ∈ numbers.map (padded 2)) {c : Char} (hc : c ∈ part) : c.isDigit = true := by
  obtain ⟨n, -, rfl⟩ := List.mem_map.mp hpart
  exact Text.isDigit_of_mem_padded hc

theorem isDigit_of_mem_flatten {numbers : List Nat} {c : Char}
    (h : c ∈ (numbers.map (padded 2)).flatten) : c.isDigit = true := by
  obtain ⟨part, hpart, hc⟩ := List.mem_flatten.mp h
  exact isDigit_of_mem_numbers hpart hc

theorem length_eq_two_of_mem_numbers {numbers : List Nat} (hlt : ∀ n ∈ numbers, n < 100) :
    ∀ part ∈ numbers.map (padded 2), part.length = 2 := by
  intro part hpart
  obtain ⟨n, hn, rfl⟩ := List.mem_map.mp hpart
  exact Text.length_padded (by decide) (hlt n hn)

/-- Parts of two characters are twice as long together as there are parts. -/
theorem length_flatten_of_length_eq_two {parts : List (List Char)}
    (h : ∀ part ∈ parts, part.length = 2) : parts.flatten.length = 2 * parts.length := by
  rw [List.length_flatten, List.map_congr_left h, List.map_const', List.sum_replicate_nat,
    Nat.mul_comm]

/-- Pairs of bytes that together are numbers of two digits are these numbers one by one. -/
theorem bytePairs_eq_iff_flatten {cs : List Char} {numbers : List Nat}
    (hlt : ∀ n ∈ numbers, n < 100) :
    bytePairs cs = numbers.map (padded 2) ↔
      (bytePairs cs).flatten = (numbers.map (padded 2)).flatten := by
  refine ⟨congrArg _, fun hflatten => ?_⟩
  have hdigits : ∀ pair ∈ bytePairs cs, ∀ c ∈ pair, c.isDigit = true := by
    intro pair hpair c hc
    exact isDigit_of_mem_flatten (hflatten ▸ List.mem_flatten.mpr ⟨pair, hpair, hc⟩)
  -- All parts on both sides have two characters, so they are cut off at the same places.
  have hleft : ∀ pair ∈ bytePairs cs, pair.length = 2 := by
    intro pair hpair
    rw [← Text.byteLength_eq_length (hdigits pair hpair)]
    exact (byteLength_and_mem_of_mem_bytePairs hpair).1
  have hright := length_eq_two_of_mem_numbers hlt
  have htotal := congrArg List.length hflatten
  rw [length_flatten_of_length_eq_two hleft, length_flatten_of_length_eq_two hright] at htotal
  refine List.eq_iff_flatten_eq.mpr ⟨hflatten, ?_⟩
  rw [List.map_congr_left hleft, List.map_congr_left hright, List.map_const', List.map_const',
    show (bytePairs cs).length = (numbers.map (padded 2)).length by omega]

/-- Numbers of two digits joined by colons or by nothing are heard if and only if the reader
cuts the text into them. -/
theorem timePieces?_eq_some_iff {cs : List Char} {numbers : List Nat} (hne : numbers ≠ [])
    (hlt : ∀ n ∈ numbers, n < 100) :
    timePieces? cs = some (numbers.map (padded 2)) ↔
      ∃ mark, (mark = [] ∨ mark = [':']) ∧
        heardTime cs = mark.intercalate (numbers.map (padded 2)) := by
  have hnocolon {ds : List Char} (hdigits : ∀ c ∈ ds, c.isDigit = true) : ':' ∉ ds :=
    fun hmem => absurd (hdigits ':' hmem) (by decide)
  have hflatten : ':' ∉ (numbers.map (padded 2)).flatten :=
    hnocolon fun _ => isDigit_of_mem_flatten
  by_cases hcolon : ':' ∈ cs
  · have hcontains : cs.contains ':' = true := List.contains_iff_mem.mpr hcolon
    rw [timePieces?, if_pos hcontains, heardTime, if_pos (.inl hcontains), Option.some.injEq]
    constructor
    · intro hsplit
      exact ⟨[':'], .inr rfl, by rw [← hsplit, List.intercalate_splitOn]⟩
    · rintro ⟨mark, rfl | rfl, rfl⟩
      · rw [Text.nil_intercalate] at hcolon
        exact absurd hcolon hflatten
      · apply List.splitOn_intercalate ':' _ (by simpa using hne)
        exact fun part hpart => hnocolon fun _ => isDigit_of_mem_numbers hpart
  · have hcontains : ¬ cs.contains ':' = true := fun h => hcolon (List.contains_iff_mem.mp h)
    -- Without a colon in the text, the numbers stand one after the other in what is heard.
    have hmark : (∃ mark, (mark = [] ∨ mark = [':']) ∧
        heardTime cs = mark.intercalate (numbers.map (padded 2))) ↔
          heardTime cs = (numbers.map (padded 2)).flatten := by
      constructor
      · rintro ⟨mark, rfl | rfl, hheard⟩
        · rwa [Text.nil_intercalate] at hheard
        · rwa [Text.intercalate_eq_flatten (hheard ▸ mt mem_of_mem_heardTime hcolon)] at hheard
      · exact fun hheard => ⟨[], .inl rfl, by rw [hheard, Text.nil_intercalate]⟩
    rw [timePieces?, if_neg hcontains, hmark, heardTime]
    by_cases heven : byteLength cs % 2 = 0
    · rw [if_pos heven, if_neg (by simp [heven, hcolon]), Option.some.injEq,
        bytePairs_eq_iff_flatten hlt]
    · rw [if_neg heven, if_pos (.inr heven)]
      refine iff_of_false (by simp) ?_
      rintro rfl
      rw [Text.byteLength_eq_length fun _ => isDigit_of_mem_flatten,
        length_flatten_of_length_eq_two (length_eq_two_of_mem_numbers hlt)] at heven
      omega

/-- A time is read from the texts in which it is heard to be written. -/
theorem exists_readStampTime?_iff {cs : List Char} {t : Time} :
    (∃ hour minute second, readStampTime? cs = some (hour, minute, second) ∧
        Time.ofClock? hour minute (if second = 60 then 59 else second) 0 = some t) ↔
      t.IsWritten (heardTime cs) := by
  simp only [readStampTime?_eq_bind, Option.bind_eq_some_iff]
  constructor
  · rintro ⟨hour, minute, second, ⟨pieces, hpieces, numbers, hnumbers, hclock⟩, htime⟩
    have hgiven : t.IsGivenBy numbers := exists_clock?_iff.mp ⟨_, _, _, hclock, htime⟩
    obtain ⟨rfl, hlt⟩ := mapM_readTwoDigits?_eq_some_iff.mp hnumbers
    obtain ⟨mark, hmark, hheard⟩ := (timePieces?_eq_some_iff hgiven.ne_nil_and_lt.1 hlt).mp hpieces
    exact ⟨numbers, mark, hgiven, hmark, hheard⟩
  · rintro ⟨numbers, mark, hgiven, hmark, hheard⟩
    obtain ⟨hne, hlt⟩ := hgiven.ne_nil_and_lt
    obtain ⟨hour, minute, second, hclock, htime⟩ := exists_clock?_iff.mpr hgiven
    have hpieces := (timePieces?_eq_some_iff hne hlt).mpr ⟨mark, hmark, hheard⟩
    have hnumbers := mapM_readTwoDigits?_eq_some_iff.mpr ⟨rfl, hlt⟩
    exact ⟨hour, minute, second, ⟨_, hpieces, numbers, hnumbers, hclock⟩, htime⟩

/-! ## Literals -/

theorem ofReading?_eq_some_iff {year : Int} {month day hour minute second nanosecond : Nat}
    {t : DateTime} :
    ofReading? year month day hour minute second nanosecond = some t ↔
      (t.date.year = year ∧ t.date.month.number = month ∧ t.date.day = day) ∧
        Time.ofClock? hour minute (if second = 60 then 59 else second) nanosecond =
          some t.time := by
  simp only [ofReading?, Option.bind_eq_bind, Option.bind_eq_some_iff, Option.pure_def,
    Option.some.injEq, Date.ofDay?_eq_some_iff, Month.ofNumber?_eq_some_iff]
  constructor
  · rintro ⟨month, rfl, date, ⟨hmonth, hday⟩, time, htime, rfl⟩
    exact ⟨⟨congrArg YearMonth.year hmonth, congrArg (·.month.number) hmonth, hday⟩, htime⟩
  · rintro ⟨⟨rfl, rfl, rfl⟩, htime⟩
    exact ⟨t.date.month, rfl, t.date, ⟨rfl, rfl⟩, t.time, htime, rfl⟩

/-- Whether a character stands between the date and the time. -/
def isTimeMark (c : Char) : Bool :=
  c == 'T' || c == 't'

/-- What the reader hears of a literal without a closing Z. -/
def heard (cs : List Char) : List Char :=
  match divideAt? isTimeMark cs with
  | some (date, time) => cs.take (date.length + 1) ++ heardTime time
  | none => cs

theorem isTimeMark_eq_false_of_isWritten {d : Date} {cs : List Char} (h : d.IsWritten cs) :
    ∀ c ∈ cs, isTimeMark c = false := by
  intro c hc
  rcases isDigit_or_eq_of_isWritten h hc with hdigit | rfl
  · rw [isTimeMark, Text.beq_of_isDigit (by decide) hdigit,
      Text.beq_of_isDigit (by decide) hdigit]
    rfl
  · decide

/-- A text with a mark is a literal if a date is before the first mark and a time after it. -/
theorem isPlainLiteral_iff_of_divideAt? {cs date time : List Char} {t : DateTime}
    (h : divideAt? isTimeMark cs = some (date, time)) :
    t.IsPlainLiteral cs ↔ t.date.IsWritten date ∧ t.time.IsWritten time := by
  constructor
  · rintro (⟨hdate, -⟩ | ⟨date', mark, time', hdate, hmark, htime, rfl⟩)
    · have hnone := Text.divideAt?_eq_none (isTimeMark_eq_false_of_isWritten hdate)
      rw [hnone] at h
      contradiction
    · have hmark : isTimeMark mark = true := by
        rcases hmark with rfl | rfl <;> decide
      rw [Text.divideAt?_append_cons hmark (isTimeMark_eq_false_of_isWritten hdate)] at h
      obtain ⟨rfl, rfl⟩ := Prod.mk.inj (Option.some.inj h)
      exact ⟨hdate, htime⟩
  · rintro ⟨hdate, htime⟩
    obtain ⟨mark, hmark, -, rfl⟩ := Text.divideAt?_eq_some_iff.mp h
    exact .inr ⟨date, mark, time, hdate, by simpa [isTimeMark] using hmark, htime, rfl⟩

/-- A text without a mark is a literal if it is a date. -/
theorem isPlainLiteral_iff_of_divideAt?_eq_none {cs : List Char} {t : DateTime}
    (h : divideAt? isTimeMark cs = none) :
    t.IsPlainLiteral cs ↔ t.date.IsWritten cs ∧ t.time = Time.midnight := by
  refine ⟨?_, .inl⟩
  rintro (hdate | ⟨date, mark, time, -, hmark, -, rfl⟩)
  · exact hdate
  · have hfalse := Text.divideAt?_eq_none_iff.mp h mark (by simp)
    rcases hmark with rfl | rfl
    all_goals exact absurd hfalse (by decide)

/-- What is heard of a text is divided where the text is. -/
theorem divideAt?_heard {cs date time : List Char}
    (h : divideAt? isTimeMark cs = some (date, time)) :
    divideAt? isTimeMark (heard cs) = some (date, heardTime time) := by
  rw [heard, h]
  obtain ⟨mark, hmark, hdate, rfl⟩ := Text.divideAt?_eq_some_iff.mp h
  have htake : (date ++ mark :: time).take (date.length + 1) = date ++ [mark] := by
    rw [List.take_length_add_append]
    rfl
  dsimp only
  rw [htake, List.append_assoc]
  exact Text.divideAt?_append_cons hmark hdate _

/-- The reader takes a text for the literal that it hears. -/
theorem ofStamp?_eq_some_iff_heard {cs : List Char} {t : DateTime} :
    ofStamp? cs = some t ↔ t.IsPlainLiteral (heard (dropZone cs)) := by
  unfold ofStamp?
  dsimp only
  rw [show (fun c => c == 'T' || c == 't') = isTimeMark from rfl]
  cases hdivide : divideAt? isTimeMark (dropZone cs) with
  | none =>
      -- A date alone stands for its midnight.
      have hmidnight : Time.ofClock? 0 0 (if 0 = 60 then 59 else 0) 0 = some Time.midnight := rfl
      rw [heard, hdivide, isPlainLiteral_iff_of_divideAt?_eq_none hdivide,
        ← exists_readStampDate?_iff]
      simp only [Option.bind_eq_bind, Option.bind_eq_some_iff, Option.map_eq_some_iff,
        ofReading?_eq_some_iff, Prod.exists]
      constructor
      · rintro ⟨_, _, _, _, _, _, ⟨_, _, _, hdate, ⟨⟩⟩, hcomponents, hclock⟩
        exact ⟨⟨_, _, _, hdate, hcomponents⟩, (Option.some.inj (hmidnight.symm.trans hclock)).symm⟩
      · rintro ⟨⟨_, _, _, hdate, hcomponents⟩, htime⟩
        rw [htime]
        exact ⟨_, _, _, _, _, _, ⟨_, _, _, hdate, rfl⟩, hcomponents, hmidnight⟩
  | some parts =>
      obtain ⟨date, time⟩ := parts
      rw [isPlainLiteral_iff_of_divideAt? (divideAt?_heard hdivide), ← exists_readStampDate?_iff,
        ← exists_readStampTime?_iff]
      simp only [Option.bind_eq_bind, Option.bind_eq_some_iff, ofReading?_eq_some_iff, Prod.exists]
      constructor
      · rintro ⟨_, _, _, hdate, _, _, _, htime, _, _, _, _, _, _, ⟨⟩, hcomponents, hclock⟩
        exact ⟨⟨_, _, _, hdate, hcomponents⟩, _, _, _, htime, hclock⟩
      · rintro ⟨⟨_, _, _, hdate, hcomponents⟩, _, _, _, htime, hclock⟩
        exact ⟨_, _, _, hdate, _, _, _, htime, _, _, _, _, _, _, rfl, hcomponents, hclock⟩

/-- A time is written with digits and colons. -/
theorem isDigit_or_eq_of_isWritten_time {t : Time} {cs : List Char} (h : t.IsWritten cs)
    {c : Char} (hc : c ∈ cs) : c.isDigit = true ∨ c = ':' := by
  obtain ⟨numbers, mark, -, hmark, rfl⟩ := h
  rcases hmark with rfl | rfl
  · rw [Text.nil_intercalate] at hc
    exact .inl (isDigit_of_mem_flatten hc)
  · have hparts : ∀ part ∈ numbers.map (padded 2), ∀ c ∈ part, c.isDigit = true ∨ c = ':' :=
      fun _ hpart _ hc => .inl (isDigit_of_mem_numbers hpart hc)
    exact Text.forall_mem_intercalate (.inr rfl) hparts c hc

/-- A plain literal is written with digits, hyphens, colons and a T. -/
theorem cases_of_mem_isPlainLiteral {t : DateTime} {cs : List Char} (h : t.IsPlainLiteral cs)
    {c : Char} (hc : c ∈ cs) : c.isDigit = true ∨ c ∈ ['-', ':', 'T', 't'] := by
  rcases h with ⟨hdate, -⟩ | ⟨date, mark, time, hdate, hmark, htime, rfl⟩
  · rcases isDigit_or_eq_of_isWritten hdate hc with hdigit | rfl
    · exact .inl hdigit
    · exact .inr (by simp)
  · rcases List.mem_append.mp hc with hc | hc
    · rcases isDigit_or_eq_of_isWritten hdate hc with hdigit | rfl
      · exact .inl hdigit
      · exact .inr (by simp)
    · rcases List.mem_cons.mp hc with rfl | hc
      · rcases hmark with rfl | rfl
        all_goals exact .inr (by simp)
      · rcases isDigit_or_eq_of_isWritten_time htime hc with hdigit | rfl
        · exact .inl hdigit
        · exact .inr (by simp)

/-- No character outside the digits and six marks is in a literal. -/
theorem cases_of_mem_isLiteral {t : DateTime} {cs : List Char} (h : t.IsLiteral cs) {c : Char}
    (hc : c ∈ cs) : c.isDigit = true ∨ c ∈ ['-', ':', 'T', 't', 'Z', 'z'] := by
  obtain ⟨plain, zone, hplain, hzone, rfl⟩ := h
  rcases List.mem_append.mp hc with hc | hc
  · rcases cases_of_mem_isPlainLiteral hplain hc with hdigit | hmark
    · exact .inl hdigit
    · refine .inr ?_
      simp only [List.mem_cons] at hmark ⊢
      tauto
  · simp only [List.mem_cons, List.not_mem_nil, or_false] at hzone
    rcases hzone with rfl | rfl | rfl
    · simp at hc
    · exact .inr (by simp [List.mem_singleton.mp hc])
    · exact .inr (by simp [List.mem_singleton.mp hc])

/-- Of a time that is written nothing is passed over. -/
theorem heardTime_eq_self_of_isWritten {t : Time} {cs : List Char} (h : t.IsWritten cs) :
    heardTime cs = cs := by
  obtain ⟨numbers, mark, hgiven, hmark, rfl⟩ := h
  obtain ⟨-, hlt⟩ := hgiven.ne_nil_and_lt
  unfold heardTime
  split
  next => rfl
  next hpairs =>
    have hflatten : mark.intercalate (numbers.map (padded 2)) =
        (numbers.map (padded 2)).flatten := by
      rcases hmark with rfl | rfl
      · exact Text.nil_intercalate _
      · apply Text.intercalate_eq_flatten
        exact fun hmem => hpairs (.inl (List.contains_iff_mem.mpr hmem))
    rw [hflatten, bytePairs_flatten_padded hlt]

/-- Of a literal nothing is passed over. -/
theorem heard_eq_self_of_isPlainLiteral {t : DateTime} {cs : List Char}
    (h : t.IsPlainLiteral cs) : heard cs = cs := by
  unfold heard
  split
  next date time hdivide =>
    obtain ⟨-, htime⟩ := (isPlainLiteral_iff_of_divideAt? hdivide).mp h
    obtain ⟨mark, -, -, rfl⟩ := Text.divideAt?_eq_some_iff.mp hdivide
    rw [heardTime_eq_self_of_isWritten htime, List.take_length_add_append, List.append_assoc]
    rfl
  next => rfl

theorem dropZone_append_of_mem {zone : List Char} (h : zone ∈ [['Z'], ['z']]) (cs : List Char) :
    dropZone (cs ++ zone) = cs := by
  simp only [List.mem_cons, List.not_mem_nil, or_false] at h
  rcases h with rfl | rfl
  all_goals simp [dropZone]

theorem exists_eq_dropZone_append (cs : List Char) :
    ∃ zone ∈ [[], ['Z'], ['z']], cs = dropZone cs ++ zone := by
  unfold dropZone
  split
  next h => exact ⟨['Z'], by simp, (List.dropLast_append_getLast? _ h).symm⟩
  next h => exact ⟨['z'], by simp, (List.dropLast_append_getLast? _ h).symm⟩
  next => exact ⟨[], by simp, (List.append_nil cs).symm⟩

/-- A plain literal does not end in a Z. -/
theorem dropZone_eq_self_of_isPlainLiteral {t : DateTime} {cs : List Char}
    (h : t.IsPlainLiteral cs) : dropZone cs = cs := by
  unfold dropZone
  split
  next hlast =>
    exact absurd (cases_of_mem_isPlainLiteral h (List.mem_of_getLast? hlast)) (by decide)
  next hlast =>
    exact absurd (cases_of_mem_isPlainLiteral h (List.mem_of_getLast? hlast)) (by decide)
  next => rfl

/-- A literal is a plain one with or without a closing Z. -/
theorem isLiteral_iff {t : DateTime} {cs : List Char} :
    t.IsLiteral cs ↔ t.IsPlainLiteral (dropZone cs) := by
  constructor
  · rintro ⟨plain, zone, hplain, hzone, rfl⟩
    rcases List.mem_cons.mp hzone with rfl | hzone
    · rwa [List.append_nil, dropZone_eq_self_of_isPlainLiteral hplain]
    · rwa [dropZone_append_of_mem hzone]
  · intro h
    obtain ⟨zone, hzone, hcs⟩ := exists_eq_dropZone_append cs
    exact ⟨dropZone cs, zone, h, hzone, hcs⟩

/-- All literals are read.  Besides them no text is read if and only if the pairs that are
passed over do not make a literal of the text. -/
theorem ofStamp?_reads_literals_iff (cs : List Char) :
    (∀ t : DateTime, t.IsLiteral cs → ofStamp? cs = some t) ∧
      ((∀ t, ofStamp? cs = some t ↔ t.IsLiteral cs) ↔
        ∀ t : DateTime, t.IsPlainLiteral (heard (dropZone cs)) →
          heard (dropZone cs) = dropZone cs) := by
  simp only [ofStamp?_eq_some_iff_heard, isLiteral_iff]
  have hread (t : DateTime) (h : t.IsPlainLiteral (dropZone cs)) :
      t.IsPlainLiteral (heard (dropZone cs)) := by
    rwa [heard_eq_self_of_isPlainLiteral h]
  refine ⟨hread, fun hall t h => ?_, fun hsame t => ⟨fun h => ?_, hread t⟩⟩
  · exact heard_eq_self_of_isPlainLiteral ((hall t).mp h)
  · rwa [← hsame t h]

/-- In the hour of this text three characters are passed over. -/
theorem ofStamp?_passes_over_pairs :
    ofStamp? "19971224T090é0".toList = ofStamp? "19971224T09".toList ∧
      ¬ ∀ t : DateTime, ofStamp? "19971224T090é0".toList = some t ↔
          t.IsLiteral "19971224T090é0".toList := by
  have hread : ofStamp? "19971224T090é0".toList = ofStamp? "19971224T09".toList := by
    decide +kernel
  refine ⟨hread, fun hall => ?_⟩
  obtain ⟨t, ht⟩ : ∃ t, ofStamp? "19971224T09".toList = some t :=
    Option.isSome_iff_exists.mp (by decide +kernel)
  have hliteral := (hall t).mp (hread.trans ht)
  have hmem : 'é' ∈ "19971224T090é0".toList := by decide +kernel
  exact absurd (cases_of_mem_isLiteral hliteral hmem) (by decide +kernel)

/-! ## Texts of one byte a character -/

theorem flatten_bytePairs : ∀ {cs : List Char}, (∀ c ∈ cs, c.utf8Size = 1) →
    byteLength cs % 2 = 0 → (bytePairs cs).flatten = cs
  | [], _, _ => rfl
  | [c], h, heven => by
      rw [byteLength, byteLength, h c (by simp)] at heven
      contradiction
  | a :: b :: cs, h, heven => by
      have ha := h a (by simp)
      have hb := h b (by simp)
      rw [byteLength, byteLength, ha, hb] at heven
      rw [bytePairs_cons_cons ha hb, List.flatten_cons,
        flatten_bytePairs (fun c hc => h c (by simp [hc])) (by omega)]
      rfl

theorem heard_eq_self {cs : List Char} (h : ∀ c ∈ cs, c.utf8Size = 1) : heard cs = cs := by
  have htime {time : List Char} (h : ∀ c ∈ time, c.utf8Size = 1) : heardTime time = time := by
    unfold heardTime
    split
    next => rfl
    next hpairs =>
      apply flatten_bytePairs h
      by_contra hodd
      exact hpairs (.inr hodd)
  unfold heard
  split
  next date time hdivide =>
    obtain ⟨mark, -, -, rfl⟩ := Text.divideAt?_eq_some_iff.mp hdivide
    rw [htime fun c hc => h c (by simp [hc]), List.take_length_add_append, List.append_assoc]
    rfl
  next => rfl

/-- Of the texts of ASCII exactly the literals are read. -/
theorem ofStamp?_eq_some_iff_isLiteral {cs : List Char} (h : ∀ c ∈ cs, c.utf8Size = 1)
    {t : DateTime} : ofStamp? cs = some t ↔ t.IsLiteral cs := by
  have hzone : ∀ c ∈ dropZone cs, c.utf8Size = 1 := by
    obtain ⟨zone, -, hcs⟩ := exists_eq_dropZone_append cs
    intro c hc
    exact h c (hcs ▸ List.mem_append_left zone hc)
  rw [ofStamp?_eq_some_iff_heard, isLiteral_iff, heard_eq_self hzone]

end DateTime
end Civil
end Timetable
