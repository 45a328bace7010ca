import Timetable.Proofs.Civil.Literals
import Timetable.Proofs.Text.Spelling

/-!
# Literals in either case of letters

The only letters of a literal are the T between the date and the time and the Z at its end,
and both may be small ones.  Capitals take as many bytes as small letters, so a text is cut
at the same places in either case, and the same pairs of bytes are passed over:
`ofStamp?_upper`.
-/

namespace Timetable

open Text (upper byteLength takeBytes? dropBytes? slice? divideAt?)

variable {cs : List Char} {n : Nat}

namespace Text

theorem byteLength_upper (cs : List Char) : byteLength (upper cs) = byteLength cs := by
  induction cs with
  | nil => rfl
  | cons c cs ih =>
      show c.toUpper.utf8Size + byteLength (upper cs) = c.utf8Size + byteLength cs
      rw [utf8Size_toUpper, ih]

theorem takeBytes?_upper (n : Nat) (cs : List Char) :
    takeBytes? n (upper cs) = (takeBytes? n cs).map upper := by
  induction cs generalizing n with
  | nil => cases n <;> rfl
  | cons c cs ih =>
      cases n with
      | zero => simp [takeBytes?, upper]
      | succ n =>
          show (if c.toUpper.utf8Size ≤ n + 1 then
            (takeBytes? (n + 1 - c.toUpper.utf8Size) (upper cs)).map (c.toUpper :: ·)
              else none) = _
          rw [utf8Size_toUpper, ih, takeBytes?]
          split
          · rw [Option.map_map, Option.map_map]
            rfl
          · rfl

theorem dropBytes?_upper (n : Nat) (cs : List Char) :
    dropBytes? n (upper cs) = (dropBytes? n cs).map upper := by
  induction cs generalizing n with
  | nil => cases n <;> rfl
  | cons c cs ih =>
      cases n with
      | zero => simp [dropBytes?]
      | succ n =>
          show (if c.toUpper.utf8Size ≤ n + 1 then
            dropBytes? (n + 1 - c.toUpper.utf8Size) (upper cs) else none) = _
          rw [utf8Size_toUpper, ih, dropBytes?]
          split <;> rfl

theorem slice?_upper (start stop : Nat) (cs : List Char) :
    slice? start stop (upper cs) = (slice? start stop cs).map upper := by
  rw [slice?, slice?]
  split
  · rw [dropBytes?_upper, Option.bind_map, Option.map_bind]
    congr 1
    funext ds
    exact takeBytes?_upper _ ds
  · rfl

theorem divideAt?_upper {isMark : Char → Bool} (h : ∀ c, isMark c.toUpper = isMark c)
    (cs : List Char) :
    divideAt? isMark (upper cs) =
      (divideAt? isMark cs).map fun parts => (upper parts.1, upper parts.2) := by
  induction cs with
  | nil => rfl
  | cons c cs ih =>
      show (if isMark c.toUpper then some ([], upper cs)
        else (divideAt? isMark (upper cs)).map fun parts => (c.toUpper :: parts.1, parts.2)) = _
      rw [h, ih, divideAt?]
      split
      · rfl
      · rw [Option.map_map, Option.map_map]
        rfl

end Text

namespace Civil
namespace DateTime

open Text (upper_iff_of_isAlpha_eq_false mem_upper_iff)

theorem bytePairs_upper (cs : List Char) : bytePairs (upper cs) = (bytePairs cs).map upper := by
  rw [bytePairs, bytePairs, Text.byteLength_upper, List.map_filterMap]
  congr 1
  funext i
  exact Text.slice?_upper _ _ cs

theorem heardTime_upper (cs : List Char) : heardTime (upper cs) = upper (heardTime cs) := by
  have hcolon : (upper cs).contains ':' = cs.contains ':' := by
    rw [Bool.eq_iff_iff, List.contains_iff_mem, List.contains_iff_mem, mem_upper_iff rfl]
  rw [heardTime, heardTime, hcolon, Text.byteLength_upper]
  split
  · rfl
  · rw [bytePairs_upper, upper, List.map_flatten]
    rfl

theorem isTimeMark_toUpper (c : Char) : isTimeMark c.toUpper = isTimeMark c := by
  rw [Bool.eq_iff_iff]
  simp only [isTimeMark, Bool.or_eq_true, beq_iff_eq]
  exact Text.toUpper_eq_or_iff (by decide) (by decide)

theorem heard_upper (cs : List Char) : heard (upper cs) = upper (heard cs) := by
  rw [heard, heard, Text.divideAt?_upper isTimeMark_toUpper]
  cases divideAt? isTimeMark cs with
  | none => rfl
  | some parts =>
      simp only [Option.map_some, heardTime_upper, Text.length_upper, Text.upper_append]
      simp [upper]

theorem dropZone_eq_of_getLast? {c : Char} (h : cs.getLast? = some c) :
    dropZone cs = if c = 'Z' ∨ c = 'z' then cs.dropLast else cs := by
  unfold dropZone
  rw [h]
  split
  next hz => rw [if_pos (.inl (Option.some.inj hz))]
  next hz => rw [if_pos (.inr (Option.some.inj hz))]
  next hZ hz => rw [if_neg (by rintro (rfl | rfl); exacts [hZ rfl, hz rfl])]

theorem dropZone_upper (cs : List Char) : dropZone (upper cs) = upper (dropZone cs) := by
  cases hlast : cs.getLast? with
  | none =>
      rw [List.getLast?_eq_none_iff.mp hlast]
      rfl
  | some c =>
      have hupper : (upper cs).getLast? = some c.toUpper := by
        rw [upper, List.getLast?_map, hlast, Option.map_some]
      rw [dropZone_eq_of_getLast? hupper, dropZone_eq_of_getLast? hlast]
      simp only [Text.toUpper_eq_or_iff (show 'z'.toUpper = 'Z' by decide) (by decide)]
      split
      · exact List.map_dropLast.symm
      · rfl

theorem isWritten_upper_iff {d : Date} : d.IsWritten (upper cs) ↔ d.IsWritten cs := by
  apply upper_iff_of_isAlpha_eq_false
  intro ds hds c hc
  rcases isDigit_or_eq_of_isWritten hds hc with hdigit | rfl
  · exact Text.isAlpha_eq_false_of_isDigit hdigit
  · rfl

theorem isWritten_time_upper_iff {t : Time} : t.IsWritten (upper cs) ↔ t.IsWritten cs := by
  apply upper_iff_of_isAlpha_eq_false
  intro ds hds c hc
  rcases isDigit_or_eq_of_isWritten_time hds hc with hdigit | rfl
  · exact Text.isAlpha_eq_false_of_isDigit hdigit
  · rfl

theorem isPlainLiteral_upper_iff {t : DateTime} :
    t.IsPlainLiteral (upper cs) ↔ t.IsPlainLiteral cs := by
  have hupper := Text.divideAt?_upper isTimeMark_toUpper cs
  cases hdivide : divideAt? isTimeMark cs with
  | none =>
      rw [hdivide, Option.map_none] at hupper
      rw [isPlainLiteral_iff_of_divideAt?_eq_none hdivide,
        isPlainLiteral_iff_of_divideAt?_eq_none hupper, isWritten_upper_iff]
  | some parts =>
      rw [hdivide, Option.map_some] at hupper
      rw [isPlainLiteral_iff_of_divideAt? hdivide, isPlainLiteral_iff_of_divideAt? hupper,
        isWritten_upper_iff, isWritten_time_upper_iff]

/-- A literal is read alike in either case of letters. -/
theorem ofStamp?_upper (cs : List Char) : ofStamp? (upper cs) = ofStamp? cs := by
  apply Option.ext
  intro t
  rw [ofStamp?_eq_some_iff_heard, ofStamp?_eq_some_iff_heard, dropZone_upper, heard_upper,
    isPlainLiteral_upper_iff]

end DateTime
end Civil
end Timetable
