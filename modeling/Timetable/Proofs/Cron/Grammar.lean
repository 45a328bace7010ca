import Timetable.Proofs.Cron.Fields
import Timetable.Proofs.Cron.Items
import Timetable.Proofs.Text.Numerals

/-!
# The grammar of cron fields

Rules that say how values, marks and progressions are written: `ShowsValue`, `ShowsMark`,
`ShowsProgression`.  They are rules for the text in capitals.  The reader tries marks, names,
ranges and steps in a fixed order; `Item.read_eq_ok_iff` says that it reads an item if and only
if a rule makes it, and that it reads the item that the rule says.

`Field.read_iff_grammar` is the whole field: which texts are read, and which values and marks
the field has.
-/

namespace Timetable
namespace Cron

open Civil
open Text (IsUnsigned upper items divideAt? unsigned?)

/-! ## Rules -/

/-- Whether a text shows a value: a number that the kind has, or a month or a weekday by its
name in its own kind of field. -/
inductive ShowsValue (k : Kind) : Nat → List Char → Prop
  | number {v : Nat} {cs : List Char} (hnumber : IsUnsigned v cs) (hleast : k.least ≤ v)
      (hgreatest : v ≤ k.greatestWritten) : ShowsValue k v cs
  | month {cs : List Char} (m : Month) (hk : k = .month)
      (hname : m.abbreviation.toList = upper cs) : ShowsValue k m.number cs
  | weekday {cs : List Char} (d : Weekday) (hk : k = .dayOfWeek)
      (hname : d.abbreviation.toList = upper cs) : ShowsValue k d.cronNumber cs

/-- Whether a text shows a weekday, Sunday by 0 or 7. -/
def ShowsWeekday (d : Weekday) (cs : List Char) : Prop :=
  ∃ v, ShowsValue .dayOfWeek v cs ∧ d.cronNumber = v % 7

/-- Whether a text shows a mark of a kind of field. -/
inductive ShowsMark : Kind → Mark → List Char → Prop
  | last : ShowsMark .dayOfMonth .last ['L']
  | lastWorkday : ShowsMark .dayOfMonth .lastWorkday ['L', 'W']
  | lastMinusNone {cs : List Char} (hnumber : IsUnsigned 0 cs) :
      ShowsMark .dayOfMonth .last ('L' :: '-' :: cs)
  | lastMinus {n : Nat} {cs : List Char} (hnumber : IsUnsigned n cs) (hpos : 1 ≤ n)
      (hle : n ≤ 30) : ShowsMark .dayOfMonth (.lastMinus n) ('L' :: '-' :: cs)
  | nearestWorkday {day : Nat} {cs : List Char} (hday : ShowsValue .dayOfMonth day cs) :
      ShowsMark .dayOfMonth (.nearestWorkday day) (cs ++ ['W'])
  | lastOn {d : Weekday} {cs : List Char} (hday : ShowsWeekday d cs) :
      ShowsMark .dayOfWeek (.lastOn d) (cs ++ ['L'])
  | nth {d : Weekday} {n : Nat} {cs ds : List Char} (hday : ShowsWeekday d cs)
      (hnumber : IsUnsigned n ds) (hpos : 1 ≤ n) (hle : n ≤ 5) :
      ShowsMark .dayOfWeek (.nth d n) (cs ++ '#' :: ds)

/-- Whether a text shows a range from a first to a last value.  If a step follows, a single
value goes on to the greatest one. -/
inductive ShowsRange (k : Kind) (stepped : Bool) : Nat → Nat → List Char → Prop
  | star : ShowsRange k stepped k.least k.greatest ['*']
  | value {v : Nat} {cs : List Char} (hvalue : ShowsValue k v cs) :
      ShowsRange k stepped v (if stepped then max k.greatest v else v) cs
  | between {first last : Nat} {cs ds : List Char} (hfirst : ShowsValue k first cs)
      (hlast : ShowsValue k last ds) (hle : first ≤ last) :
      ShowsRange k stepped first last (cs ++ '-' :: ds)

/-- Whether a text shows a progression: a range, and a step after a slash. -/
inductive ShowsProgression (k : Kind) : Progression → List Char → Prop
  | range {first last : Nat} {cs : List Char} (hrange : ShowsRange k false first last cs) :
      ShowsProgression k ⟨first, last, 1⟩ cs
  | stepped {first last step : Nat} {cs ds : List Char}
      (hrange : ShowsRange k true first last cs) (hstep : IsUnsigned step ds)
      (hpos : 1 ≤ step) (hlt : step < Nat.pow 2 16) :
      ShowsProgression k ⟨first, last, step⟩ (cs ++ '/' :: ds)

/-- Whether a text shows an item of a kind of field. -/
inductive ShowsItem (k : Kind) : Item → List Char → Prop
  | mark {m : Mark} {cs : List Char} (h : ShowsMark k m cs) : ShowsItem k (.mark m) cs
  | progression {p : Progression} {cs : List Char} (h : ShowsProgression k p cs) :
      ShowsItem k (.progression p) cs

variable {k : Kind} {v : Nat} {cs : List Char}

/-! ## Values -/

/-- A value that a text shows is one that may be written. -/
theorem ShowsValue.bounds (h : ShowsValue k v cs) : k.least ≤ v ∧ v ≤ k.greatestWritten := by
  cases h with
  | number _ hleast hgreatest => exact ⟨hleast, hgreatest⟩
  | month m hk _ =>
      subst hk
      exact ⟨m.one_le_number, m.number_le⟩
  | weekday d hk _ =>
      subst hk
      cases d <;> decide

theorem ofMonthName?_eq_some_iff {m : Month} :
    Month.ofAbbreviation? cs = some m ↔ m.abbreviation.toList = upper cs := by
  apply Lists.find?_beq_eq_some_iff
  intro m
  cases m <;> rfl

theorem ofWeekdayName?_eq_some_iff {d : Weekday} :
    Weekday.ofAbbreviation? cs = some d ↔ d.abbreviation.toList = upper cs := by
  apply Lists.find?_beq_eq_some_iff
  intro d
  cases d <;> rfl

/-- Names are written in capitals. -/
theorem isUpper_of_mem_monthName {m : Month} {c : Char} (h : c ∈ m.abbreviation.toList) :
    c.isUpper = true := by
  have hall : m.abbreviation.toList.all Char.isUpper = true := by
    cases m <;> rfl
  exact List.all_eq_true.mp hall c h

theorem isUpper_of_mem_weekdayName {d : Weekday} {c : Char} (h : c ∈ d.abbreviation.toList) :
    c.isUpper = true := by
  have hall : d.abbreviation.toList.all Char.isUpper = true := by
    cases d <;> rfl
  exact List.all_eq_true.mp hall c h

/-- A number is no name, as names have no digit. -/
theorem readName?_eq_none_of_isUnsigned (h : IsUnsigned v cs) : k.readName? cs = none := by
  obtain ⟨c, hc, hdigit⟩ := h.exists_isDigit
  have hupper : c ∈ upper cs :=
    List.mem_map.mpr ⟨c, hc, Text.toUpper_of_isDigit hdigit⟩
  have hcapital : ¬ c.isUpper = true := by
    intro hcapital
    rw [Text.isDigit_eq_false_of_isUpper hcapital] at hdigit
    contradiction
  unfold Kind.readName?
  split
  next =>
    rw [Option.map_eq_none_iff, Option.eq_none_iff_forall_ne_some]
    intro m hm
    rw [ofMonthName?_eq_some_iff] at hm
    exact hcapital (isUpper_of_mem_monthName (hm.symm ▸ hupper))
  next =>
    rw [Option.map_eq_none_iff, Option.eq_none_iff_forall_ne_some]
    intro d hd
    rw [ofWeekdayName?_eq_some_iff] at hd
    exact hcapital (isUpper_of_mem_weekdayName (hd.symm ▸ hupper))
  next => rfl

/-- A value is read if and only if the text shows it. -/
theorem readValue_eq_ok_iff : k.readValue cs = .ok v ↔ ShowsValue k v cs := by
  -- Every value a field can have fits the sixteen bits that numbers are read into.
  have hbits := greatestWritten_lt k
  constructor
  · intro h
    unfold Kind.readValue at h
    split at h
    next name hname =>
      obtain rfl := Except.ok.inj h
      unfold Kind.readName? at hname
      split at hname
      next =>
        obtain ⟨m, hm, rfl⟩ := Option.map_eq_some_iff.mp hname
        exact .month m rfl (ofMonthName?_eq_some_iff.mp hm)
      next =>
        obtain ⟨d, hd, rfl⟩ := Option.map_eq_some_iff.mp hname
        exact .weekday d rfl (ofWeekdayName?_eq_some_iff.mp hd)
      next => simp at hname
    next =>
      split at h
      next => simp at h
      next number hnumber =>
        split at h
        next hbounds =>
          obtain rfl := Except.ok.inj h
          exact .number (Text.unsigned?_eq_some_iff.mp hnumber).1 hbounds.1 hbounds.2
        next => simp at h
  · intro h
    cases h with
    | number hnumber hleast hgreatest =>
        have hread : unsigned? 16 cs = some v :=
          Text.unsigned?_eq_some_iff.mpr ⟨hnumber, by omega⟩
        simp only [Kind.readValue, readName?_eq_none_of_isUnsigned hnumber, hread]
        rw [if_pos ⟨hleast, hgreatest⟩]
    | month m hk hname =>
        subst hk
        simp only [Kind.readValue, Kind.readName?, ofMonthName?_eq_some_iff.mpr hname,
          Option.map_some]
    | weekday d hk hname =>
        subst hk
        simp only [Kind.readValue, Kind.readName?, ofWeekdayName?_eq_some_iff.mpr hname,
          Option.map_some]

theorem readWeekday_eq_ok_iff {d : Weekday} : readWeekday cs = .ok d ↔ ShowsWeekday d cs := by
  have hnumber : ∀ v ≤ 7, Weekday.ofCronNumber? v = some d ↔ d.cronNumber = v % 7 := by
    cases d <;> decide
  unfold readWeekday ShowsWeekday
  simp only [bind_eq_ok_iff, readValue_eq_ok_iff]
  apply exists_congr
  intro v
  apply and_congr_right
  intro hv
  rw [← hnumber v hv.bounds.2]
  split
  next hd => rw [hd, pure_eq_ok_iff, Option.some.injEq]
  next hd => simp [hd, throw_ne_ok]

theorem readStep_eq_ok_iff {n : Nat} :
    readStep cs = .ok n ↔ IsUnsigned n cs ∧ 1 ≤ n ∧ n < Nat.pow 2 16 := by
  unfold readStep
  constructor
  · intro h
    split at h
    next => simp at h
    next => simp at h
    next m hzero hnumber =>
      obtain rfl := Except.ok.inj h
      obtain ⟨hnumber, hlt⟩ := Text.unsigned?_eq_some_iff.mp hnumber
      have hne : m ≠ 0 := fun hm => hzero (hm ▸ rfl)
      exact ⟨hnumber, by omega, hlt⟩
  · rintro ⟨hnumber, hpos, hlt⟩
    rw [Text.unsigned?_eq_some_iff.mpr ⟨hnumber, hlt⟩]
    split
    next h => simp at h
    next h =>
      rw [Option.some.injEq] at h
      omega
    next h => rw [Option.some.inj h]

/-- A text that shows a value has no character but digits, a plus and letters of names. -/
theorem ShowsValue.not_mem {c : Char} (h : ShowsValue k v cs) (hdigit : c.isDigit = false)
    (hplus : c ≠ '+') (hmonth : k = .month → ∀ m : Month, c.toUpper ∉ m.abbreviation.toList)
    (hweekday : k = .dayOfWeek → ∀ d : Weekday, c.toUpper ∉ d.abbreviation.toList) :
    c ∉ cs := by
  intro hc
  have hupper : c.toUpper ∈ upper cs := List.mem_map_of_mem hc
  cases h with
  | number hnumber _ _ =>
      rcases hnumber.isDigit_or_eq hc with h | h
      · simp [hdigit] at h
      · exact hplus h
  | month m hk hname => exact hmonth hk m (hname.symm ▸ hupper)
  | weekday d hk hname => exact hweekday hk d (hname.symm ▸ hupper)

/-- No sign of an item is in a value. -/
theorem ShowsValue.not_mem_sign (h : ShowsValue k v cs) :
    ∀ c ∈ ['*', '?', '/', '-', '#'], c ∉ cs := by
  intro c hc
  obtain ⟨hdigit, hplus, hcapital⟩ :
      c.isDigit = false ∧ c ≠ '+' ∧ ¬ c.toUpper.isUpper = true := by
    simp only [List.mem_cons, List.not_mem_nil, or_false] at hc
    rcases hc with rfl | rfl | rfl | rfl | rfl <;> decide
  exact h.not_mem hdigit hplus (fun _ _ hname => hcapital (isUpper_of_mem_monthName hname))
    fun _ _ hname => hcapital (isUpper_of_mem_weekdayName hname)

theorem ShowsValue.ne_nil (h : ShowsValue k v cs) : cs ≠ [] := by
  rintro rfl
  cases h with
  | number hnumber _ _ =>
      obtain ⟨c, hc, -⟩ := hnumber.exists_isDigit
      simp at hc
  | month m _ hname => cases m <;> exact absurd hname (by decide)
  | weekday d _ hname => cases d <;> exact absurd hname (by decide)

/-! ## Progressions -/

/-- Read what stands before a step. -/
def readRange (k : Kind) (item range : List Char) (step : Option Nat) :
    Except Fault Progression := do
  if range = ['*'] then
    return ⟨k.least, k.greatest, step.getD 1⟩
  match divideAt? (· == '-') range with
  | some (first, last) =>
      let first ← k.readValue first
      let last ← k.readValue last
      if last < first then
        throw (.descendingRange (String.ofList item))
      return ⟨first, last, step.getD 1⟩
  | none =>
      let value ← k.readValue range
      match step with
      | some n => return ⟨value, max k.greatest value, n⟩
      | none => return ⟨value, value, 1⟩

theorem readProgression_eq (k : Kind) (item cs : List Char) :
    readProgression k item cs = match divideAt? (· == '/') cs with
      | some (range, step) => readStep step >>= fun n => readRange k item range (some n)
      | none => readRange k item cs none := by
  cases hdivide : divideAt? (· == '/') cs with
  | none =>
      rw [readProgression, hdivide]
      rfl
  | some parts =>
      obtain ⟨range, step⟩ := parts
      rw [readProgression, hdivide]
      dsimp only
      cases readStep step <;> rfl

theorem showsRange_of_readRange {item : List Char} {step : Option Nat} {p : Progression}
    (h : readRange k item cs step = .ok p) :
    ShowsRange k step.isSome p.first p.last cs ∧ p.step = step.getD 1 := by
  unfold readRange at h
  split at h
  next hstar =>
    obtain rfl := pure_eq_ok_iff.mp h
    rw [hstar]
    exact ⟨.star, rfl⟩
  next =>
    split at h
    next first last hdivide =>
      simp only [bind_eq_ok_iff, readValue_eq_ok_iff] at h
      obtain ⟨first, hfirst, last, hlast, h⟩ := h
      rw [Text.eq_of_divideAt?_eq_some hdivide]
      split at h
      next =>
        obtain ⟨_, hthrow, -⟩ := bind_eq_ok_iff.mp h
        exact absurd hthrow throw_ne_ok
      next hle =>
        obtain rfl := pure_eq_ok_iff.mp h
        exact ⟨.between hfirst hlast (Nat.not_lt.mp hle), rfl⟩
    next =>
      simp only [bind_eq_ok_iff, readValue_eq_ok_iff] at h
      obtain ⟨value, hvalue, h⟩ := h
      -- A single value with a step runs to the end of its field.
      cases step with
      | some n =>
          obtain rfl := pure_eq_ok_iff.mp h
          exact ⟨.value hvalue, rfl⟩
      | none =>
          obtain rfl := pure_eq_ok_iff.mp h
          exact ⟨.value hvalue, rfl⟩

theorem readRange_of_showsRange {item : List Char} {step : Option Nat} {first last : Nat}
    (h : ShowsRange k step.isSome first last cs) :
    readRange k item cs step = .ok ⟨first, last, step.getD 1⟩ := by
  cases h with
  | star => rfl
  | value hvalue =>
      have hstar : cs ≠ ['*'] := by
        intro hstar
        subst hstar
        exact hvalue.not_mem_sign '*' (by simp) (by simp)
      have hdivide := Text.divideAt?_eq_none_of_not_mem (hvalue.not_mem_sign '-' (by simp))
      rw [readRange, if_neg hstar, hdivide]
      refine bind_eq_ok_iff.mpr ⟨_, readValue_eq_ok_iff.mpr hvalue, ?_⟩
      cases step <;> rfl
  | @between _ _ front back hfirst hlast hle =>
      have hstar : front ++ '-' :: back ≠ ['*'] := by
        simp [List.append_eq_cons_iff, hfirst.ne_nil]
      have hdivide := Text.divideAt?_eq_some_of_not_mem (hfirst.not_mem_sign '-' (by simp)) back
      rw [readRange, if_neg hstar, hdivide]
      refine bind_eq_ok_iff.mpr ⟨_, readValue_eq_ok_iff.mpr hfirst, ?_⟩
      refine bind_eq_ok_iff.mpr ⟨_, readValue_eq_ok_iff.mpr hlast, ?_⟩
      rw [if_neg (Nat.not_lt.mpr hle)]
      rfl

/-- What stands before a step is read if and only if it shows a range. -/
theorem readRange_eq_ok_iff {item : List Char} {step : Option Nat} {p : Progression} :
    readRange k item cs step = .ok p ↔
      ShowsRange k step.isSome p.first p.last cs ∧ p.step = step.getD 1 := by
  constructor
  · exact showsRange_of_readRange
  · intro h
    obtain ⟨first, last, n⟩ := p
    obtain ⟨hrange, rfl⟩ := h
    exact readRange_of_showsRange hrange

/-- No slash is in a range. -/
theorem ShowsRange.not_mem_slash {stepped : Bool} {first last : Nat}
    (h : ShowsRange k stepped first last cs) : '/' ∉ cs := by
  cases h with
  | star => simp
  | value hvalue => exact hvalue.not_mem_sign '/' (by simp)
  | between hfirst hlast _ =>
      simp [hfirst.not_mem_sign '/' (by simp), hlast.not_mem_sign '/' (by simp)]

/-- A progression is read if and only if the text shows it. -/
theorem readProgression_eq_ok_iff {item : List Char} {p : Progression} :
    readProgression k item cs = .ok p ↔ ShowsProgression k p cs := by
  rw [readProgression_eq]
  constructor
  · intro h
    obtain ⟨first, last, n⟩ := p
    split at h
    next range step hdivide =>
      rw [Text.eq_of_divideAt?_eq_some hdivide]
      simp only [bind_eq_ok_iff, readStep_eq_ok_iff, readRange_eq_ok_iff] at h
      obtain ⟨m, ⟨hstep, hpos, hlt⟩, hrange, rfl⟩ := h
      exact .stepped hrange hstep hpos hlt
    next =>
      obtain ⟨hrange, rfl⟩ := readRange_eq_ok_iff.mp h
      exact .range hrange
  · intro h
    cases h with
    | range hrange =>
        rw [Text.divideAt?_eq_none_of_not_mem hrange.not_mem_slash]
        exact readRange_eq_ok_iff.mpr ⟨hrange, rfl⟩
    | stepped hrange hstep hpos hlt =>
        rw [Text.divideAt?_eq_some_of_not_mem hrange.not_mem_slash]
        refine bind_eq_ok_iff.mpr ⟨_, readStep_eq_ok_iff.mpr ⟨hstep, hpos, hlt⟩, ?_⟩
        exact readRange_eq_ok_iff.mpr ⟨hrange, rfl⟩

/-! ## Marks -/

theorem dropLast?_eq_some_iff {c : Char} {ds : List Char} :
    dropLast? c cs = some ds ↔ cs = ds ++ [c] := by
  constructor
  · intro h
    unfold dropLast? at h
    split at h
    next hlast =>
      rw [← Option.some.inj h]
      exact (List.dropLast_append_getLast? _ hlast).symm
    next => simp at h
  · rintro rfl
    exact dropLast?_concat c ds

theorem readMonthDayMark_lastMinus_eq (cs : List Char) :
    readMonthDayMark ('L' :: '-' :: cs) = match unsigned? 8 cs with
      | some 0 => .ok (some .last)
      | some n =>
          if n ≤ 30 then
            .ok (some (.lastMinus n))
          else
            .error (.invalidLastOffset (String.ofList cs))
      | none => .error (.invalidLastOffset (String.ofList cs)) :=
  rfl

theorem showsMark_of_readMonthDayMark {m : Mark} (h : readMonthDayMark cs = .ok (some m)) :
    ShowsMark .dayOfMonth m cs := by
  unfold readMonthDayMark at h
  split at h
  next =>
    obtain rfl := Option.some.inj (Except.ok.inj h)
    exact .last
  next =>
    obtain rfl := Option.some.inj (Except.ok.inj h)
    exact .lastWorkday
  next offset =>
    split at h
    next hnumber =>
      obtain rfl := Option.some.inj (Except.ok.inj h)
      exact .lastMinusNone (Text.unsigned?_eq_some_iff.mp hnumber).1
    next n hzero hnumber =>
      split at h
      next hle =>
        obtain rfl := Option.some.inj (Except.ok.inj h)
        have hne : n ≠ 0 := fun hn => hzero (hn ▸ rfl)
        exact .lastMinus (Text.unsigned?_eq_some_iff.mp hnumber).1 (by omega) hle
      next => simp at h
    next => simp at h
  next =>
    split at h
    next day hday =>
      obtain ⟨n, hread, hm⟩ := map_eq_ok_iff.mp h
      obtain rfl := Option.some.inj hm
      rw [dropLast?_eq_some_iff.mp hday]
      exact .nearestWorkday (readValue_eq_ok_iff.mp hread)
    next => simp at h

theorem showsMark_of_readWeekdayMark {m : Mark} (h : readWeekdayMark cs = .ok (some m)) :
    ShowsMark .dayOfWeek m cs := by
  unfold readWeekdayMark at h
  split at h
  next day occurrence hdivide =>
    obtain ⟨weekday, hday, h⟩ := bind_eq_ok_iff.mp h
    rw [Text.eq_of_divideAt?_eq_some hdivide]
    split at h
    next n hnumber =>
      split at h
      next hbounds =>
        obtain rfl := Option.some.inj (pure_eq_ok_iff.mp h)
        exact .nth (readWeekday_eq_ok_iff.mp hday) (Text.unsigned?_eq_some_iff.mp hnumber).1
          hbounds.1 hbounds.2
      next => exact absurd h throw_ne_ok
    next => exact absurd h throw_ne_ok
  next =>
    split at h
    next => simp at h
    next =>
      split at h
      next day hday =>
        obtain ⟨weekday, hread, hm⟩ := map_eq_ok_iff.mp h
        obtain rfl := Option.some.inj hm
        rw [dropLast?_eq_some_iff.mp hday]
        exact .lastOn (readWeekday_eq_ok_iff.mp hread)
      next => simp at h

/-- A value of the days of the month begins with a digit or a plus, so it is not taken for one
of the marks that begin with an L. -/
theorem ShowsValue.exists_head (h : ShowsValue .dayOfMonth v cs) :
    ∃ c ds, cs = c :: ds ∧ c ≠ 'L' := by
  have hlast : 'L' ∉ cs := h.not_mem (by decide) (by decide) (by simp) (by simp)
  cases cs with
  | nil => exact absurd rfl h.ne_nil
  | cons c ds =>
      refine ⟨c, ds, rfl, ?_⟩
      rintro rfl
      exact hlast List.mem_cons_self

theorem ShowsWeekday.not_mem_hash {d : Weekday} (h : ShowsWeekday d cs) : '#' ∉ cs := by
  obtain ⟨v, hv, -⟩ := h
  exact hv.not_mem_sign '#' (by simp)

theorem readMark_of_showsMark {m : Mark} (h : ShowsMark k m cs) :
    readMark k cs = .ok (some m) := by
  cases h with
  | last => rfl
  | lastWorkday => rfl
  | lastMinusNone hnumber =>
      rw [readMark, readMonthDayMark_lastMinus_eq,
        Text.unsigned?_eq_some_iff.mpr ⟨hnumber, by decide⟩]
      rfl
  | @lastMinus n offset hnumber hpos hle =>
      have hread : unsigned? 8 offset = some n :=
        Text.unsigned?_eq_some_iff.mpr ⟨hnumber, Nat.lt_of_le_of_lt hle (by decide)⟩
      rw [readMark, readMonthDayMark_lastMinus_eq, hread]
      -- Only the middle arm remains: the offset is read, and it is not zero.
      split
      next hzero =>
        rw [Option.some.injEq] at hzero
        omega
      next m _ hm => rw [← Option.some.inj hm, if_pos hle]
      next hnone => simp at hnone
  | @nearestWorkday day chars hday =>
      obtain ⟨c, ds, hhead, hc⟩ := hday.exists_head
      rw [readMark, hhead, List.cons_append, readMonthDayMark_of_head hc, ← List.cons_append,
        dropLast?_concat, ← hhead]
      dsimp only
      rw [readValue_eq_ok_iff.mpr hday]
      rfl
  | @lastOn d chars hday =>
      have hnone : divideAt? (· == '#') (chars ++ ['L']) = none :=
        Text.divideAt?_eq_none_of_not_mem (by simp [hday.not_mem_hash])
      have hlong : chars ++ ['L'] ≠ ['L'] := by
        obtain ⟨v, hv, -⟩ := hday
        simpa using hv.ne_nil
      simp only [readMark, readWeekdayMark, hnone, if_neg hlong, dropLast?_concat,
        readWeekday_eq_ok_iff.mpr hday]
      rfl
  | @nth d n chars ds hday hnumber hpos hle =>
      have hread : unsigned? 8 ds = some n :=
        Text.unsigned?_eq_some_iff.mpr ⟨hnumber, Nat.lt_of_le_of_lt hle (by decide)⟩
      simp only [readMark, readWeekdayMark,
        Text.divideAt?_eq_some_of_not_mem hday.not_mem_hash ds, readWeekday_eq_ok_iff.mpr hday,
        hread]
      show (if 1 ≤ n ∧ n ≤ 5 then _ else _) = _
      rw [if_pos ⟨hpos, hle⟩]
      rfl

/-- A mark is read if and only if the text shows it. -/
theorem readMark_eq_ok_some_iff {m : Mark} :
    readMark k cs = .ok (some m) ↔ ShowsMark k m cs := by
  refine ⟨fun h => ?_, readMark_of_showsMark⟩
  cases k
  case dayOfMonth => exact showsMark_of_readMonthDayMark h
  case dayOfWeek => exact showsMark_of_readWeekdayMark h
  all_goals simp [readMark] at h

theorem ShowsValue.not_mem_markSigns (h : ShowsValue k v cs) : ∀ c ∈ k.markSigns, c ∉ cs := by
  have hweekday : ∀ d : Weekday, 'L'.toUpper ∉ d.abbreviation.toList := by
    intro d
    cases d <;> decide
  cases k
  case dayOfMonth =>
    simp only [Kind.markSigns, List.forall_mem_cons]
    exact ⟨h.not_mem (by decide) (by decide) (by simp) (by simp),
      h.not_mem (by decide) (by decide) (by simp) (by simp), by simp⟩
  case dayOfWeek =>
    simp only [Kind.markSigns, List.forall_mem_cons]
    exact ⟨h.not_mem (by decide) (by decide) (by simp) (fun _ => hweekday),
      h.not_mem_sign '#' (by simp), by simp⟩
  all_goals simp [Kind.markSigns]

theorem ne_of_mem_markSigns {c : Char} (h : c ∈ k.markSigns) :
    c.isDigit = false ∧ c ∉ ['+', '*', '/', '-'] := by
  cases k
  case dayOfMonth | dayOfWeek =>
    simp only [Kind.markSigns, List.mem_cons, List.not_mem_nil, or_false] at h
    rcases h with rfl | rfl <;> decide
  all_goals simp [Kind.markSigns] at h

theorem ShowsRange.not_mem_markSigns {stepped : Bool} {first last : Nat}
    (h : ShowsRange k stepped first last cs) : ∀ c ∈ k.markSigns, c ∉ cs := by
  intro c hc
  have hsign := (ne_of_mem_markSigns hc).2
  cases h with
  | star => exact fun hmem => hsign (by simp [List.mem_singleton.mp hmem])
  | value hvalue => exact hvalue.not_mem_markSigns c hc
  | between hfirst hlast _ =>
      rw [List.mem_append, List.mem_cons, not_or, not_or]
      exact ⟨hfirst.not_mem_markSigns c hc, fun heq => hsign (by simp [heq]),
        hlast.not_mem_markSigns c hc⟩

/-- What shows a progression is not taken for a mark. -/
theorem readMark_of_showsProgression {p : Progression} (h : ShowsProgression k p cs) :
    readMark k cs = .ok none := by
  apply readMark_eq_none
  intro c hc
  obtain ⟨hdigit, hsign⟩ := ne_of_mem_markSigns hc
  cases h with
  | range hrange => exact hrange.not_mem_markSigns c hc
  | @stepped _ _ _ front back hrange hstep _ _ =>
      have hfront : c ∉ front := hrange.not_mem_markSigns c hc
      have hback : c ∉ back := by
        intro hmem
        rcases hstep.isDigit_or_eq hmem with h | rfl
        · simp [hdigit] at h
        · simp at hsign
      rw [List.mem_append, List.mem_cons, not_or, not_or]
      exact ⟨hfront, fun heq => hsign (by simp [heq]), hback⟩

/-- An item is read if and only if its text in capitals shows it. -/
theorem Item.read_eq_ok_iff {item : Item} :
    Item.read k cs = .ok item ↔ ShowsItem k item (upper cs) := by
  unfold Item.read
  rw [bind_eq_ok_iff]
  constructor
  · intro h
    obtain ⟨m?, hmark, h⟩ := h
    cases m? with
    | some m =>
        obtain rfl := pure_eq_ok_iff.mp h
        exact .mark (readMark_eq_ok_some_iff.mp hmark)
    | none =>
        obtain ⟨p, hp, h⟩ := bind_eq_ok_iff.mp h
        obtain rfl := pure_eq_ok_iff.mp h
        exact .progression (readProgression_eq_ok_iff.mp hp)
  · intro h
    cases h with
    | mark hmark => exact ⟨_, readMark_of_showsMark hmark, rfl⟩
    | progression hp =>
        refine ⟨none, readMark_of_showsProgression hp, ?_⟩
        exact bind_eq_ok_iff.mpr ⟨_, readProgression_eq_ok_iff.mpr hp, rfl⟩

/-! ## Fields -/

/-- The value that is kept for a written one: Sunday is 0. -/
def Kind.fold (k : Kind) (v : Nat) : Nat :=
  if k = .dayOfWeek then v % 7 else v

/-- The mark that an item is. -/
def Item.mark? : Item → Option Mark
  | .mark m => some m
  | .progression _ => none

namespace Field

/-- The values that a field accepts, marks left aside. -/
def values (k : Kind) : Field → List Nat
  | .any => k.values
  | .only values _ => values

/-- The marks of a field. -/
def marks : Field → List Mark
  | .any => []
  | .only _ marks => marks

/-- What the field of a list of items is. -/
structure Denotes (k : Kind) (read : List Item) (f : Field) : Prop where
  values_ascend : (f.values k).Pairwise (· < ·)
  values_bounds : ∀ v ∈ f.values k, k.least ≤ v ∧ v ≤ k.greatest
  mem_values_iff : ∀ v, v ∈ f.values k ↔ ∃ p, Item.progression p ∈ read ∧
    ∃ i, p.first + i * p.step ≤ p.last ∧ v = k.fold (p.first + i * p.step)
  marks_eq : f.marks = (read.filterMap Item.mark?).eraseDups
  eq_any_iff : f = .any ↔ f.values k = k.values ∧ f.marks = []

end Field

theorem Progression.contains_iff {p : Progression} :
    p.contains v = true ↔ ∃ i, p.first + i * p.step ≤ p.last ∧ v = p.first + i * p.step := by
  simp only [Progression.contains, Bool.and_eq_true, decide_eq_true_eq]
  constructor
  · intro h
    obtain ⟨⟨hfirst, hlast⟩, hstep⟩ := h
    have hv : p.first + (v - p.first) / p.step * p.step = v := by
      rw [Nat.div_mul_cancel (Nat.dvd_of_mod_eq_zero hstep)]
      omega
    exact ⟨(v - p.first) / p.step, by omega, hv.symm⟩
  · intro h
    obtain ⟨i, hlast, rfl⟩ := h
    exact ⟨⟨Nat.le_add_right _ _, hlast⟩, by simp⟩

/-- The spellings of a value that is kept are the written values that fold onto it. -/
theorem mem_spellings_iff {w : Nat} :
    v ∈ k.values ∧ w ∈ k.spellings v ↔ k.least ≤ w ∧ w ≤ k.greatestWritten ∧ k.fold w = v := by
  rw [Kind.mem_values_iff]
  by_cases hk : k = .dayOfWeek
  · subst hk
    by_cases hv : v = 0
    · simp [Kind.least, Kind.greatest, Kind.greatestWritten, Kind.spellings, Kind.fold, hv]
      omega
    · simp [Kind.least, Kind.greatest, Kind.greatestWritten, Kind.spellings, Kind.fold, hv]
      omega
  · have hwritten : k.greatestWritten = k.greatest := by
      cases k <;> first | rfl | exact absurd rfl hk
    simp only [Kind.spellings, Kind.fold, hk, hwritten, decide_false, Bool.false_and,
      Bool.false_eq_true, if_false, List.mem_singleton]
    omega

theorem ShowsRange.bounds {stepped : Bool} {first last : Nat}
    (h : ShowsRange k stepped first last cs) : k.least ≤ first ∧ last ≤ k.greatestWritten := by
  have hwritten := greatest_le_greatestWritten k
  cases h with
  | star => exact ⟨Nat.le_refl _, hwritten⟩
  | value hvalue =>
      have hbounds := hvalue.bounds
      refine ⟨hbounds.1, ?_⟩
      split
      next => exact Nat.max_le.mpr ⟨hwritten, hbounds.2⟩
      next => exact hbounds.2
  | between hfirst hlast _ => exact ⟨hfirst.bounds.1, hlast.bounds.2⟩

theorem ShowsProgression.bounds {p : Progression} (h : ShowsProgression k p cs) :
    k.least ≤ p.first ∧ p.last ≤ k.greatestWritten := by
  cases h with
  | range hrange => exact hrange.bounds
  | stepped hrange _ _ _ => exact hrange.bounds

/-- A progression has its first value. -/
theorem ShowsProgression.first_le_last {p : Progression} (h : ShowsProgression k p cs) :
    p.first ≤ p.last := by
  have hrange {stepped : Bool} {first last : Nat} {cs : List Char}
      (h : ShowsRange k stepped first last cs) : first ≤ last := by
    cases h with
    | star => cases k <;> decide
    | value _ =>
        split
        next => exact Nat.le_max_right _ _
        next => exact Nat.le_refl _
    | between _ _ hle => exact hle
  cases h with
  | range h => exact hrange h
  | stepped h _ _ _ => exact hrange h

/-- The values of a field are those that a progression of it has, each as it is kept. -/
theorem mem_valuesOf_iff {read : List Item}
    (h : ∀ p, Item.progression p ∈ read → ∃ text, ShowsProgression k p text) :
    v ∈ valuesOf k read ↔ ∃ p, Item.progression p ∈ read ∧
      ∃ i, p.first + i * p.step ≤ p.last ∧ v = k.fold (p.first + i * p.step) := by
  have hprogression {p : Progression} (hp : Item.progression p ∈ read) :
      v ∈ k.values ∧ (k.spellings v).any p.contains = true ↔
        ∃ i, p.first + i * p.step ≤ p.last ∧ v = k.fold (p.first + i * p.step) := by
    obtain ⟨text, htext⟩ := h p hp
    obtain ⟨hleast, hgreatest⟩ := htext.bounds
    simp only [List.any_eq_true, Progression.contains_iff]
    constructor
    · intro hvalue
      obtain ⟨hv, w, hw, i, hlast, rfl⟩ := hvalue
      exact ⟨i, hlast, (mem_spellings_iff.mp ⟨hv, hw⟩).2.2.symm⟩
    · intro hvalue
      obtain ⟨i, hlast, hv⟩ := hvalue
      obtain ⟨hmem, hspelled⟩ := mem_spellings_iff.mpr
        ⟨show k.least ≤ p.first + i * p.step by omega, by omega, hv.symm⟩
      exact ⟨hmem, _, hspelled, i, hlast, rfl⟩
  rw [valuesOf, List.mem_filter, List.any_eq_true]
  constructor
  · intro hvalue
    obtain ⟨hv, item, hitem, hcontains⟩ := hvalue
    cases item with
    | mark m => simp at hcontains
    | progression p => exact ⟨p, hitem, (hprogression hitem).mp ⟨hv, hcontains⟩⟩
  · intro hvalue
    obtain ⟨p, hp, hi⟩ := hvalue
    obtain ⟨hv, hcontains⟩ := (hprogression hp).mpr hi
    exact ⟨hv, _, hp, hcontains⟩

theorem marksOf_eq (read : List Item) :
    marksOf read = (read.filterMap Item.mark?).eraseDups := by
  refine congrArg (fun f => (read.filterMap f).eraseDups) ?_
  funext item
  cases item <;> rfl

namespace Field

theorem values_ofValues (values : List Nat) (marks : List Mark) :
    (ofValues k values marks).values k = values := by
  unfold ofValues
  split
  next hall => exact hall.1.symm
  next => rfl

theorem marks_ofValues (values : List Nat) (marks : List Mark) :
    (ofValues k values marks).marks = marks := by
  unfold ofValues
  split
  next hall => exact hall.2.symm
  next => rfl

theorem ofValues_eq_any_iff {values : List Nat} {marks : List Mark} :
    ofValues k values marks = .any ↔ values = k.values ∧ marks = [] := by
  simp [ofValues]

/-- The field of items that texts show. -/
theorem denotes_ofValues {read : List Item}
    (h : ∀ p, Item.progression p ∈ read → ∃ text, ShowsProgression k p text) :
    (ofValues k (valuesOf k read) (marksOf read)).Denotes k read where
  values_ascend := by
    rw [values_ofValues]
    exact (values_ascend k).sublist List.filter_sublist
  values_bounds := by
    rw [values_ofValues]
    exact fun v hv => Kind.mem_values_iff.mp (List.mem_of_mem_filter hv)
  mem_values_iff := by
    rw [values_ofValues]
    exact fun v => mem_valuesOf_iff h
  marks_eq := by rw [marks_ofValues, marksOf_eq]
  eq_any_iff := by rw [values_ofValues, marks_ofValues, ofValues_eq_any_iff]

end Field

/-- The items of a list are read if and only if none is empty and each text shows its item. -/
theorem readItems_eq_ok_iff {read : List Item} :
    readItems k cs = .ok read ↔
      List.Forall₂ (fun text item => text ≠ [] ∧ ShowsItem k item (upper text)) (items cs)
        read := by
  rw [readItems]
  apply mapM_eq_ok_iff_of_iff
  intro text item
  by_cases hempty : text = []
  · simp [hempty]
  · simp [hempty, Item.read_eq_ok_iff]

/-- Every progression among items that texts show is shown by one of them. -/
theorem exists_showsProgression {texts : List (List Char)} {read : List Item}
    (h : List.Forall₂ (fun text item => ShowsItem k item (upper text)) texts read)
    {p : Progression} (hp : Item.progression p ∈ read) : ∃ text, ShowsProgression k p text := by
  obtain ⟨text, -, hitem⟩ := exists_of_forall₂ h hp
  cases hitem with
  | progression hshows => exact ⟨upper text, hshows⟩

namespace Field

/-- A star alone is a list too: its only item is everything that the kind has. -/
theorem denotes_star (k : Kind) :
    Field.any.Denotes k [.progression ⟨k.least, k.greatest, 1⟩] := by
  have hall : ofValues k (valuesOf k [.progression ⟨k.least, k.greatest, 1⟩])
      (marksOf [.progression ⟨k.least, k.greatest, 1⟩]) = .any := by
    cases k <;> rfl
  rw [← hall]
  apply denotes_ofValues
  intro p hp
  obtain rfl := Item.progression.inj (List.mem_singleton.mp hp)
  exact ⟨['*'], .range .star⟩

/-- A question mark is no item of a list. -/
theorem not_showsItem_question (k : Kind) (item : Item) : ¬ ShowsItem k item (upper ['?']) := by
  intro h
  have hfault : ∃ fault, Item.read k ['?'] = .error fault := by
    cases k <;> exact ⟨_, rfl⟩
  obtain ⟨fault, hfault⟩ := hfault
  rw [Item.read_eq_ok_iff.mpr h] at hfault
  contradiction

/-- A text other than a star or a question mark is read if it is a list of items. -/
theorem read_eq_ok_iff_of_ne (hstar : cs ≠ ['*']) (hquestion : cs ≠ ['?']) {f : Field} :
    Field.read k cs = .ok f ↔
      ∃ read, List.Forall₂ (fun text item => text ≠ [] ∧ ShowsItem k item (upper text))
        (items cs) read ∧ ofValues k (valuesOf k read) (marksOf read) = f := by
  rw [Field.read, if_neg hstar, if_neg hquestion, map_eq_ok_iff]
  simp only [readItems_eq_ok_iff]

/-- Which texts are read as a field, and what the field is. -/
theorem read_iff_grammar (k : Kind) (cs : List Char) :
    ((∃ f, Field.read k cs = .ok f) ↔
      cs = ['*'] ∨ cs = ['?'] ∧ (k = .dayOfMonth ∨ k = .dayOfWeek) ∨
        ∀ text ∈ items cs, text ≠ [] ∧ ∃ item, ShowsItem k item (upper text)) ∧
    ∀ f, Field.read k cs = .ok f →
      cs = ['?'] ∧ f = .any ∨
        ∃ read, List.Forall₂ (fun text item => ShowsItem k item (upper text)) (items cs) read ∧
          f.Denotes k read := by
  by_cases hstar : cs = ['*']
  · subst hstar
    refine ⟨iff_of_true ⟨.any, rfl⟩ (.inl rfl), fun f hf => .inr ?_⟩
    obtain rfl := Except.ok.inj hf
    exact ⟨_, List.Forall₂.cons (.progression (.range .star)) .nil, denotes_star k⟩
  by_cases hquestion : cs = ['?']
  · subst hquestion
    have hlist : ¬ ∀ text ∈ items ['?'], text ≠ [] ∧ ∃ item, ShowsItem k item (upper text) := by
      intro h
      obtain ⟨-, item, hitem⟩ := h ['?'] (by decide)
      exact not_showsItem_question k item hitem
    have hread : Field.read k ['?'] =
        if k.allowsQuestionMark then .ok .any else .error (.questionMark k) := rfl
    have hkind : k.allowsQuestionMark = true ↔ k = .dayOfMonth ∨ k = .dayOfWeek := by
      simp [Kind.allowsQuestionMark]
    rw [hread]
    by_cases hallowed : k.allowsQuestionMark = true
    · rw [if_pos hallowed]
      refine ⟨iff_of_true ⟨.any, rfl⟩ (.inr (.inl ⟨rfl, hkind.mp hallowed⟩)), fun f hf => ?_⟩
      exact .inl ⟨rfl, (Except.ok.inj hf).symm⟩
    · rw [if_neg hallowed]
      simp [hlist, ← hkind, hallowed]
  -- What is left is a list of items: a field is read exactly if every item is.
  simp only [read_eq_ok_iff_of_ne hstar hquestion]
  constructor
  · rw [or_iff_right hstar, or_iff_right fun h => hquestion h.1]
    simp only [← exists_and_left]
    rw [← exists_forall₂_iff]
    constructor
    · intro h
      obtain ⟨-, read, hread, -⟩ := h
      exact ⟨read, hread⟩
    · intro h
      obtain ⟨read, hread⟩ := h
      exact ⟨_, read, hread, rfl⟩
  · intro f hf
    obtain ⟨read, hread, rfl⟩ := hf
    have hshows := hread.imp fun _ _ h => h.2
    exact .inr ⟨read, hshows, denotes_ofValues fun p => exists_showsProgression hshows⟩

end Field
end Cron
end Timetable
