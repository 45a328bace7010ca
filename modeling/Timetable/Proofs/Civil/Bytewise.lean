import Timetable.Proofs.Civil.Literals

/-!
# Reading literals by the positions of bytes

The parts of a date stand at fixed bytes of a literal: after eight digits or ten characters of
ASCII have been counted, the year, the month and the day can be cut out.  `readStampDate?ByBytes`
reads a date in this way, with nothing as its answer where a cut does not lie between two
characters; `readStampDate?ByBytes_eq` says that this never happens, and that the date is the
one that the list of characters shows.
-/

namespace Timetable
namespace Civil
namespace DateTime

open Text (digits? divideAt? slice? byteLength bytes isAscii)

variable {cs : List Char}

/-- Read three numbers without signs. -/
def readNumbers? (year month day : List Char) : Option (Nat × Nat × Nat) :=
  return (← digits? year, ← digits? month, ← digits? day)

/-- Read the date of a literal by cutting at fixed bytes. -/
def readStampDate?ByBytes (cs : List Char) : Option (Option (Nat × Nat × Nat)) :=
  if byteLength cs = 8 then
    if cs.all Char.isDigit then do
      let year ← slice? 0 4 cs
      let month ← slice? 4 6 cs
      let day ← slice? 6 8 cs
      return readNumbers? year month day
    else
      return none
  else if byteLength cs = 10 then
    if isAscii cs then do
      let first ← (bytes cs)[4]?
      let second ← (bytes cs)[7]?
      if first = 45 && second = 45 then
        let year ← slice? 0 4 cs
        let month ← slice? 5 7 cs
        let day ← slice? 8 10 cs
        return readNumbers? year month day
      else
        return none
    else
      return none
  else
    return none

/-- Read a literal by cutting at bytes. -/
def ofStamp?ByBytes (cs : List Char) : Option (Option DateTime) :=
  let body := dropZone cs
  match divideAt? (fun c => c == 'T' || c == 't') body with
  | some (date, time) => do
      let date ← readStampDate?ByBytes date
      return do
        let (year, month, day) ← date
        let (hour, minute, second) ← readStampTime? time
        ofReading? year month day hour minute second 0
  | none => do
      let date ← readStampDate?ByBytes body
      return do
        let (year, month, day) ← date
        ofReading? year month day 0 0 0 0

theorem exists_eq_of_length_eight (h : cs.length = 8) :
    ∃ y₁ y₂ y₃ y₄ m₁ m₂ d₁ d₂, cs = [y₁, y₂, y₃, y₄, m₁, m₂, d₁, d₂] := by
  iterate 8 rcases cs with _ | ⟨_, cs⟩; · simp at h
  obtain rfl : cs = [] := by simpa using h
  exact ⟨_, _, _, _, _, _, _, _, rfl⟩

theorem exists_eq_of_length_ten (h : cs.length = 10) :
    ∃ y₁ y₂ y₃ y₄ a m₁ m₂ b d₁ d₂, cs = [y₁, y₂, y₃, y₄, a, m₁, m₂, b, d₁, d₂] := by
  iterate 10 rcases cs with _ | ⟨_, cs⟩; · simp at h
  obtain rfl : cs = [] := by simpa using h
  exact ⟨_, _, _, _, _, _, _, _, _, _, rfl⟩

/-- A date that is read has eight digits, or ten characters of ASCII with two hyphens. -/
theorem bytes_of_readStampDate? {date : Nat × Nat × Nat} (h : readStampDate? cs = some date) :
    byteLength cs = 8 ∧ cs.all Char.isDigit = true ∨
      byteLength cs = 10 ∧ isAscii cs = true ∧ (bytes cs)[4]? = some 45 ∧
        (bytes cs)[7]? = some 45 := by
  have hdigits {cs : List Char} {n : Nat} (h : digits? cs = some n) :
      cs.all Char.isDigit = true := by
    unfold digits? at h
    split at h
    next hall => exact hall.2
    next => simp at h
  unfold readStampDate? at h
  split at h
  next y₁ y₂ y₃ y₄ m₁ m₂ d₁ d₂ =>
    simp only [Option.bind_eq_bind, Option.bind_eq_some_iff] at h
    obtain ⟨_, hyear, _, hmonth, _, hday, -⟩ := h
    have hall : ([y₁, y₂, y₃, y₄] ++ [m₁, m₂] ++ [d₁, d₂]).all Char.isDigit = true := by
      rw [List.all_append, List.all_append, hdigits hyear, hdigits hmonth, hdigits hday]
      rfl
    exact .inl ⟨Text.byteLength_of_isAscii (Text.isAscii_of_all_isDigit hall), hall⟩
  next y₁ y₂ y₃ y₄ m₁ m₂ d₁ d₂ =>
    simp only [Option.bind_eq_bind, Option.bind_eq_some_iff] at h
    obtain ⟨_, hyear, _, hmonth, _, hday, -⟩ := h
    have hascii : isAscii ([y₁, y₂, y₃, y₄] ++ ('-' :: [m₁, m₂] ++ ('-' :: [d₁, d₂]))) = true := by
      have hparts {cs : List Char} {n : Nat} (h : digits? cs = some n) : isAscii cs = true :=
        Text.isAscii_of_all_isDigit (hdigits h)
      have hhyphen {cs : List Char} (h : isAscii cs = true) : isAscii ('-' :: cs) = true := h
      rw [Text.isAscii_append, Text.isAscii_append, hparts hyear, hhyphen (hparts hmonth),
        hhyphen (hparts hday)]
      rfl
    refine .inr ⟨Text.byteLength_of_isAscii hascii, hascii, ?_⟩
    rw [show bytes [y₁, y₂, y₃, y₄, '-', m₁, m₂, '-', d₁, d₂] = _ from
      Text.bytes_of_isAscii hascii]
    exact ⟨rfl, rfl⟩
  next => simp at h

/-- Reading by bytes never cuts a character, and reads the date that the text shows. -/
theorem readStampDate?ByBytes_eq (cs : List Char) :
    readStampDate?ByBytes cs = some (readStampDate? cs) := by
  -- A text of another shape shows no date to the reader by characters either.
  have hnone (h : ¬ (byteLength cs = 8 ∧ cs.all Char.isDigit = true ∨
      byteLength cs = 10 ∧ isAscii cs = true ∧ (bytes cs)[4]? = some 45 ∧
        (bytes cs)[7]? = some 45)) : some none = some (readStampDate? cs) := by
    rw [Option.eq_none_iff_forall_ne_some.mpr fun date hdate => h (bytes_of_readStampDate? hdate)]
  unfold readStampDate?ByBytes
  split
  next height =>
    split
    next hdigits =>
      have hascii := Text.isAscii_of_all_isDigit hdigits
      have hlength : cs.length = 8 := by rw [← Text.byteLength_of_isAscii hascii, height]
      rw [Text.slice?_of_isAscii hascii (by decide) (by omega),
        Text.slice?_of_isAscii hascii (by decide) (by omega),
        Text.slice?_of_isAscii hascii (by decide) (by omega)]
      obtain ⟨_, _, _, _, _, _, _, _, rfl⟩ := exists_eq_of_length_eight hlength
      rfl
    next hdigits => exact hnone (by simp [height, hdigits])
  next height =>
    split
    next hten =>
      split
      next hascii =>
        have hlength : cs.length = 10 := by rw [← Text.byteLength_of_isAscii hascii, hten]
        rw [Text.slice?_of_isAscii hascii (by decide) (by omega),
          Text.slice?_of_isAscii hascii (by decide) (by omega),
          Text.slice?_of_isAscii hascii (by decide) (by omega)]
        rw [Text.bytes_of_isAscii hascii] at hnone ⊢
        obtain ⟨_, _, _, _, a, _, _, b, _, _, rfl⟩ := exists_eq_of_length_ten hlength
        -- In an ASCII text a byte is a character, so a byte 45 is a hyphen.
        have hhyphens {c : Char} (hc : c.toNat < 128) : UInt8.ofNat c.toNat = 45 ↔ c = '-' :=
          Text.ofNat_toNat_inj hc (show '-'.toNat < 128 by decide)
        simp only [isAscii, List.all_cons, Bool.and_eq_true, decide_eq_true_eq] at hascii
        show (if (decide (UInt8.ofNat a.toNat = 45) && decide (UInt8.ofNat b.toNat = 45)) = true
          then _ else some none) = _
        split
        next hmarks =>
          simp only [Bool.and_eq_true, decide_eq_true_eq] at hmarks
          obtain rfl := (hhyphens hascii.2.2.2.2.1).mp hmarks.1
          obtain rfl := (hhyphens hascii.2.2.2.2.2.2.2.1).mp hmarks.2
          rfl
        next hmarks =>
          apply hnone
          simp only [List.map_cons, List.getElem?_cons_succ, List.getElem?_cons_zero,
            Option.some.injEq]
          rw [Bool.and_eq_true, decide_eq_true_eq, decide_eq_true_eq] at hmarks
          rintro (h | h)
          · exact height h.1
          · exact hmarks h.2.2
      next hascii => exact hnone (by simp [height, hascii])
    next hten => exact hnone (by simp [height, hten])

/-- A literal is read by bytes as it is by characters. -/
theorem ofStamp?ByBytes_eq (cs : List Char) : ofStamp?ByBytes cs = some (ofStamp? cs) := by
  unfold ofStamp?ByBytes ofStamp?
  dsimp only
  cases divideAt? (fun c => c == 'T' || c == 't') (dropZone cs) with
  | some parts =>
      obtain ⟨date, time⟩ := parts
      simp only [readStampDate?ByBytes_eq]
      cases readStampDate? date with
      | none => rfl
      | some numbers => cases readStampTime? time <;> rfl
  | none =>
      simp only [readStampDate?ByBytes_eq]
      cases readStampDate? (dropZone cs) <;> rfl

end DateTime
end Civil
end Timetable
