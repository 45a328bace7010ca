import Timetable.Civil.Stamp
import Timetable.Proofs.Civil.Calendar
import Timetable.Proofs.Civil.Order
import Timetable.Proofs.Text.Joining

/-!
# Timestamp literals are read back

The literal of a datetime with whole seconds is read as that datetime if the year is not
negative: `ofStamp?_stampChars`.  A year before the year 0 has a minus in its literal, which
no reader of digits takes, so such a literal is never read:
`ofStamp?_stampChars_of_year_neg`.
-/

namespace Timetable

namespace Text

theorem isDigit_of_mem_padded {width n : Nat} {c : Char} (h : c ∈ padded width n) :
    c.isDigit = true :=
  List.all_eq_true.mp (all_isDigit_padded width n) c h

/-- A number that fits its width is filled up to it. -/
theorem length_padded {width n : Nat} (hpos : 0 < width) (h : n < Nat.pow 10 width) :
    (padded width n).length = width := by
  have hle : (decimal n).length ≤ width :=
    (Nat.length_toDigits_le_iff (by decide) hpos).mpr h
  rw [padded, List.length_append, List.length_replicate]
  omega

theorem utf8Size_of_isDigit {c : Char} (h : c.isDigit = true) : c.utf8Size = 1 := by
  have hbounds : 48 ≤ c.toNat ∧ c.toNat ≤ 57 := Char.isDigit_iff_toNat.mp h
  rw [Char.utf8Size_eq_one_iff, UInt32.le_iff_toNat_le]
  have hval : c.val.toNat ≤ 127 := Nat.le_trans hbounds.2 (by decide)
  exact hval

/-- Every digit is one byte, so the bytes of digits are counted as the digits are. -/
theorem byteLength_eq_length {cs : List Char} (h : ∀ c ∈ cs, c.isDigit = true) :
    byteLength cs = cs.length := by
  induction cs with
  | nil => rfl
  | cons c cs ih =>
      have hrest := ih fun d hd => h d (List.mem_cons_of_mem c hd)
      rw [byteLength, hrest, utf8Size_of_isDigit (h c List.mem_cons_self), List.length_cons,
        Nat.add_comm]

end Text

namespace Civil
namespace DateTime

open Text (padded digits?)

theorem padded_two {n : Nat} (h : n < 100) : ∃ c d, padded 2 n = [c, d] :=
  List.length_eq_two.mp (Text.length_padded (by decide) h)

theorem padded_four {n : Nat} (h : n < 10000) :
    ∃ a b c d, padded 4 n = [a, b, c, d] := by
  have hlength : (padded 4 n).length = 4 := Text.length_padded (by decide) h
  match hfour : padded 4 n, hlength with
  | [a, b, c, d], _ => exact ⟨a, b, c, d, rfl⟩

/-! ## Characters of literals -/

/-- The date of a literal, up to the T. -/
def stampDateChars (t : DateTime) : List Char :=
  stampYear t.date.year ++ padded 2 t.date.month.number ++ padded 2 t.date.day

/-- The time of a literal, after the T. -/
def stampTimeChars (t : DateTime) : List Char :=
  padded 2 t.time.hour ++ padded 2 t.time.minute ++ padded 2 t.time.second

theorem stampChars_eq (t : DateTime) :
    t.stampChars = t.stampDateChars ++ 'T' :: t.stampTimeChars := by
  simp [stampChars, stampDateChars, stampTimeChars]

theorem isDigit_of_mem_stampDateChars {t : DateTime} {c : Char}
    (h : c ∈ t.stampDateChars) : c.isDigit = true ∨ c = '-' := by
  simp only [stampDateChars, List.mem_append, stampYear] at h
  rcases h with (h | h) | h
  · split at h
    · rcases List.mem_cons.mp h with rfl | h
      · exact .inr rfl
      · exact .inl (Text.isDigit_of_mem_padded h)
    · exact .inl (Text.isDigit_of_mem_padded h)
  · exact .inl (Text.isDigit_of_mem_padded h)
  · exact .inl (Text.isDigit_of_mem_padded h)

theorem isDigit_of_mem_stampTimeChars {t : DateTime} {c : Char}
    (h : c ∈ t.stampTimeChars) : c.isDigit = true := by
  simp only [stampTimeChars, List.mem_append] at h
  rcases h with (h | h) | h
  all_goals exact Text.isDigit_of_mem_padded h

/-- The characters of a literal are digits, hyphens and the T. -/
theorem cases_of_mem_stampChars {t : DateTime} {c : Char} (h : c ∈ t.stampChars) :
    c.isDigit = true ∨ c = '-' ∨ c = 'T' := by
  rw [stampChars_eq, List.mem_append, List.mem_cons] at h
  rcases h with h | rfl | h
  · rcases isDigit_of_mem_stampDateChars h with hdigit | rfl
    · exact .inl hdigit
    · exact .inr (.inl rfl)
  · exact .inr (.inr rfl)
  · exact .inl (isDigit_of_mem_stampTimeChars h)

theorem dropZone_stampChars (t : DateTime) : dropZone t.stampChars = t.stampChars := by
  unfold dropZone
  split
  next h =>
    rcases cases_of_mem_stampChars (List.mem_of_getLast? h) with hc | hc | hc
    all_goals exact absurd hc (by decide)
  next h =>
    rcases cases_of_mem_stampChars (List.mem_of_getLast? h) with hc | hc | hc
    all_goals exact absurd hc (by decide)
  next => rfl

/-- A literal is divided at its T. -/
theorem divideAt?_stampChars (t : DateTime) :
    Text.divideAt? (fun c => c == 'T' || c == 't') t.stampChars =
      some (t.stampDateChars, t.stampTimeChars) := by
  rw [stampChars_eq]
  apply Text.divideAt?_append_cons (by decide)
  intro c hc
  rcases isDigit_of_mem_stampDateChars hc with hdigit | rfl
  · rw [Text.beq_of_isDigit (by decide) hdigit, Text.beq_of_isDigit (by decide) hdigit]
    rfl
  · decide

/-! ## Reading them -/

theorem readStampDate?_stampDateChars {t : DateTime} (hyear : 0 ≤ t.date.year) :
    readStampDate? t.stampDateChars =
      some (t.date.year.toNat, t.date.month.number, t.date.day) := by
  have hlast := t.date.year_le
  have hlength := t.date.day_le_length
  have hmonth := t.date.month.number_le
  have hday : t.date.yearMonth.length ≤ 31 := YearMonth.length_le _
  obtain ⟨y₁, y₂, y₃, y₄, hy⟩ := padded_four (n := t.date.year.toNat) (by omega)
  obtain ⟨m₁, m₂, hm⟩ := padded_two (n := t.date.month.number) (by omega)
  obtain ⟨d₁, d₂, hd⟩ := padded_two (n := t.date.day) (by omega)
  have habs : t.date.year.natAbs = t.date.year.toNat := by omega
  rw [stampDateChars, stampYear, if_neg (by omega), habs, hy, hm, hd]
  show (do return (← digits? [y₁, y₂, y₃, y₄], ← digits? [m₁, m₂], ← digits? [d₁, d₂])) = _
  rw [← hy, ← hm, ← hd, Text.digits?_padded, Text.digits?_padded, Text.digits?_padded]
  rfl

/-- No date begins with a minus. -/
theorem readStampDate?_minus (cs : List Char) : readStampDate? ('-' :: cs) = none := by
  have hnone (y₂ y₃ y₄ : Char) : digits? ['-', y₂, y₃, y₄] = none := by
    rw [digits?, if_neg]
    simp
  unfold readStampDate?
  split
  next h =>
    rw [← (List.cons.inj h).1, hnone]
    rfl
  next h =>
    rw [← (List.cons.inj h).1, hnone]
    rfl
  next => rfl

/-- Two characters of one byte each are a pair. -/
theorem bytePairs_cons_cons {a b : Char} (ha : a.utf8Size = 1) (hb : b.utf8Size = 1)
    (cs : List Char) : bytePairs (a :: b :: cs) = [a, b] :: bytePairs cs := by
  have hlength : Text.byteLength (a :: b :: cs) / 2 = Text.byteLength cs / 2 + 1 := by
    rw [Text.byteLength, Text.byteLength, ha, hb]
    omega
  have hfirst : Text.slice? (2 * 0) (2 * 0 + 2) (a :: b :: cs) = some [a, b] := by
    simp [Text.slice?, Text.dropBytes?, Text.takeBytes?, ha, hb]
  have hrest (i : Nat) : Text.slice? (2 * (i + 1)) (2 * (i + 1) + 2) (a :: b :: cs) =
      Text.slice? (2 * i) (2 * i + 2) cs := by
    have hdrop : Text.dropBytes? (2 * i + 1 + 1) (a :: b :: cs) = Text.dropBytes? (2 * i) cs := by
      rw [Text.dropBytes?, ha, if_pos (by omega), Nat.add_sub_cancel, Text.dropBytes?, hb,
        if_pos (by omega), Nat.add_sub_cancel]
    rw [Text.slice?, Text.slice?, if_pos (by omega), if_pos (by omega), Nat.add_sub_cancel_left,
      Nat.add_sub_cancel_left, Nat.mul_succ, hdrop]
  rw [bytePairs, hlength, List.range_succ_eq_map, List.filterMap_cons, hfirst,
    List.filterMap_map]
  exact congrArg _ (List.filterMap_congr fun i _ => hrest i)

/-- Numbers of two digits are cut into themselves. -/
theorem bytePairs_flatten_padded {numbers : List Nat} (h : ∀ n ∈ numbers, n < 100) :
    bytePairs (numbers.map (padded 2)).flatten = numbers.map (padded 2) := by
  induction numbers with
  | nil => rfl
  | cons n rest ih =>
      obtain ⟨a, b, hab⟩ := padded_two (h n List.mem_cons_self)
      have hsize {c : Char} (hc : c ∈ padded 2 n) : c.utf8Size = 1 :=
        Text.utf8Size_of_isDigit (Text.isDigit_of_mem_padded hc)
      rw [hab] at hsize
      rw [List.map_cons, List.flatten_cons, hab, List.cons_append, List.cons_append,
        List.nil_append, bytePairs_cons_cons (hsize (by simp)) (hsize (by simp)),
        ih fun m hm => h m (List.mem_cons_of_mem n hm)]

theorem readStampTime?_stampTimeChars (t : DateTime) :
    readStampTime? t.stampTimeChars = some (t.time.hour, t.time.minute, t.time.second) := by
  have hhour := t.time.hour_lt
  have hminute := t.time.minute_lt
  have hsecond := t.time.second_lt
  have hdigits : ∀ c ∈ t.stampTimeChars, c.isDigit = true := fun _ =>
    isDigit_of_mem_stampTimeChars
  have hcolon : t.stampTimeChars.contains ':' = false := by
    rw [← Bool.not_eq_true, List.contains_iff_mem]
    exact fun hmem => absurd (hdigits ':' hmem) (by decide)
  have hlength {n : Nat} (h : n < 100) : (padded 2 n).length = 2 :=
    Text.length_padded (by decide) h
  have htwo {n : Nat} (h : n < 100) : readTwoDigits? (padded 2 n) = some n := by
    rw [readTwoDigits?, if_pos (hlength h), Text.digits?_padded]
  have hpairs : bytePairs t.stampTimeChars =
      [padded 2 t.time.hour, padded 2 t.time.minute, padded 2 t.time.second] := by
    have hflatten := @bytePairs_flatten_padded
      [t.time.hour, t.time.minute, t.time.second] (by simp; omega)
    simpa [stampTimeChars] using hflatten
  have heven : Text.byteLength t.stampTimeChars % 2 = 0 := by
    rw [Text.byteLength_eq_length hdigits, stampTimeChars, List.length_append,
      List.length_append, hlength (by omega), hlength (by omega), hlength (by omega)]
  rw [readStampTime?, if_neg (by simpa using hcolon), if_pos heven, hpairs]
  simp only [Option.bind_eq_bind, Option.bind_some, List.mapM_cons, List.mapM_nil,
    htwo (show t.time.hour < 100 by omega), htwo (show t.time.minute < 100 by omega),
    htwo (show t.time.second < 100 by omega), Option.pure_def]

/-- The literal of a datetime with whole seconds in the year 0 or later is read back. -/
theorem ofStamp?_stampChars {t : DateTime} (hwhole : t.time.nanosecond = 0)
    (hyear : 0 ≤ t.date.year) : ofStamp? t.stampChars = some t := by
  have hyear : (t.date.year.toNat : Int) = t.date.year := Int.toNat_of_nonneg hyear
  have hsecond : t.time.second ≠ 60 := by
    have hlt := t.time.second_lt
    omega
  have htime : Time.ofClock? t.time.hour t.time.minute t.time.second 0 = some t.time := by
    rw [← hwhole]
    exact Time.ofClock?_components t.time
  have hdate : Date.ofDay? ⟨t.date.year, t.date.month⟩ t.date.day = some t.date :=
    Date.ofDay?_yearMonth_day t.date
  rw [ofStamp?, dropZone_stampChars]
  dsimp only
  rw [divideAt?_stampChars]
  dsimp only
  rw [readStampDate?_stampDateChars (by omega), readStampTime?_stampTimeChars]
  show ofReading? _ _ _ _ _ _ _ = _
  rw [ofReading?, hyear, Month.ofNumber?_number, if_neg hsecond]
  show (Date.ofDay? _ _ >>= fun _ => _) = _
  rw [hdate, htime]
  rfl

/-- The literal of a year before the year 0 is not read. -/
theorem ofStamp?_stampChars_of_year_neg {t : DateTime} (hyear : t.date.year < 0) :
    ofStamp? t.stampChars = none := by
  rw [ofStamp?, dropZone_stampChars]
  dsimp only
  rw [divideAt?_stampChars]
  dsimp only
  rw [stampDateChars, stampYear, if_pos hyear, List.cons_append, List.cons_append,
    readStampDate?_minus]
  rfl

/-- What is read from a literal has whole seconds and a year that is not negative. -/
theorem wholeSecond_and_year_nonneg_of_ofStamp? {cs : List Char} {t : DateTime}
    (h : ofStamp? cs = some t) : t.time.nanosecond = 0 ∧ 0 ≤ t.date.year := by
  obtain ⟨year, month, day, hour, minute, second, h⟩ :
      ∃ year month day hour minute second : Nat,
        ofReading? year month day hour minute second 0 = some t := by
    unfold ofStamp? at h
    dsimp only at h
    split at h
    next =>
      obtain ⟨⟨year, month, day⟩, -, h⟩ := Option.bind_eq_some_iff.mp h
      obtain ⟨⟨hour, minute, second⟩, -, h⟩ := Option.bind_eq_some_iff.mp h
      exact ⟨year, month, day, hour, minute, second, h⟩
    next =>
      obtain ⟨⟨⟨year, month, day⟩, hour, minute, second⟩, -, h⟩ :=
        Option.bind_eq_some_iff.mp h
      exact ⟨year, month, day, hour, minute, second, h⟩
  simp only [ofReading?, Option.bind_eq_bind, Option.bind_eq_some_iff, Option.pure_def,
    Option.some.injEq] at h
  obtain ⟨m, -, date, hdate, time, htime, rfl⟩ := h
  have hym := (Date.yearMonth_day_of_ofDay? hdate).1
  refine ⟨(Time.components_of_ofClock? htime).2.2.2, ?_⟩
  show 0 ≤ date.year
  rw [← Date.yearMonth_year, hym]
  exact Int.natCast_nonneg year

end DateTime
end Civil
end Timetable
