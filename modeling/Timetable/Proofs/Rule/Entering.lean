import Timetable.Proofs.Lists
import Timetable.Proofs.Rule.Properties
import Timetable.Proofs.Text.Reading

/-!
# Entering a written draft

Each property of a draft's text is entered as the value that the draft has, provided that
the draft admits the key: that the value is one the frequency has a use for and lies in its
range, and that a deadline can be written at all (`enter_eq_ok_iff`).  Entering is then
copying the value (`copy`).

Copies of different keys do not disturb each other, and what the text leaves out is the value
that a reader assumes.  So entering all properties gives the draft again:
`foldl_copy_keys`.
-/

namespace Timetable

open Civil
open Text (decimal signedDecimal unsigned? signed? trim items)

/-! ## Reading values back -/

theorem Text.IsPlain.trim_eq {cs : List Char} (h : Text.IsPlain cs) : trim cs = cs :=
  Text.trim_eq_self fun c hc =>
    Text.isBlank_of_isVisible (Text.isVisible_of_isPlainChar (h.2 c hc))

/-- The items of a value are found again. -/
theorem Draft.items_valueChars {d : Draft} {key : Key} (h : key ∈ d.keys) :
    items (d.valueChars key) = d.valueItems key := by
  apply List.splitOn_intercalate _ _ (Draft.mem_keys_iff.mp h)
  intro item hitem hcomma
  exact absurd ((Draft.isPlain_of_mem_valueItems hitem).2 ',' hcomma) (by decide)

namespace ValueRange

/-- A range whose numbers have no more than 32 binary digits. -/
def IsNarrow (range : ValueRange) : Prop :=
  -(Nat.pow 2 31 : Int) ≤ range.least ∧ range.greatest < (Nat.pow 2 31 : Int)

instance (range : ValueRange) : Decidable range.IsNarrow :=
  inferInstanceAs (Decidable (_ ∧ _))

variable {range : ValueRange}

theorem signed?_of_contains (hrange : range.IsNarrow) {n : Int}
    (h : range.contains n = true) : signed? 32 (signedDecimal n) = some n := by
  simp only [contains, Bool.and_eq_true, decide_eq_true_eq] at h
  rw [Text.signed?_signedDecimal, Option.filter_some, if_pos]
  rw [decide_eq_true_eq]
  exact ⟨Int.le_trans hrange.1 h.1.1, Int.lt_of_le_of_lt h.1.2 hrange.2⟩

/-- Numbers that were written are read back if they are in the range. -/
theorem readList_eq_ok_iff (hrange : range.IsNarrow) {cs : List Char} {ns ms : List Int}
    (hcs : items cs = ns.map signedDecimal) :
    range.readList cs = .ok ms ↔ (∀ n ∈ ns, range.contains n = true) ∧ ms = ns := by
  rw [readList, hcs]
  apply mapM_map_eq_ok_iff
  intro n _ m
  dsimp only
  rw [(Text.isPlain_signedDecimal n).trim_eq]
  by_cases hcontains : range.contains n = true
  · rw [signed?_of_contains hrange hcontains]
    simp [hcontains, eq_comm]
  · -- Outside the range a number is refused whether or not it can be read.
    split
    next => simp [hcontains]
    next m' hm' =>
      rw [Text.eq_of_signed?_signedDecimal hm', if_neg hcontains]
      simp [hcontains]

theorem map_readList_eq_ok_iff (hrange : range.IsNarrow) {cs : List Char} {ns : List Int}
    (hcs : items cs = ns.map signedDecimal) {α : Type} {f : List Int → α} {b : α} :
    (range.readList cs).map f = .ok b ↔ (∀ n ∈ ns, range.contains n = true) ∧ b = f ns := by
  simp only [map_eq_ok_iff, readList_eq_ok_iff hrange hcs]
  constructor
  · rintro ⟨_, ⟨hall, rfl⟩, rfl⟩
    exact ⟨hall, rfl⟩
  · rintro ⟨hall, rfl⟩
    exact ⟨ns, ⟨hall, rfl⟩, rfl⟩

end ValueRange

theorem Key.readWeekday_token (key : Key) (d : Weekday) :
    key.readWeekday d.token.toList = .ok d := by
  rw [Key.readWeekday, Weekday.ofToken?_token]

namespace WeekdaySelector

/-- Whether the ordinal of a weekday, if it has one, is in range and of use. -/
def IsAdmitted (frequency : Frequency) (s : WeekdaySelector) : Prop :=
  ∀ n ∈ s.ordinal, ValueRange.ordinal.contains n = true ∧ frequency.allowsOrdinals = true

theorem length_token (d : Weekday) : d.token.toList.length = 2 := by
  cases d <;> rfl

/-- The guard of the reader: long enough, and nothing but ASCII. -/
private theorem guard_chars (s : WeekdaySelector) :
    (s.chars.length < 2 || !Text.isAscii s.chars) = false := by
  have hlength : 2 ≤ s.chars.length := by
    rw [chars, List.length_append, length_token]
    omega
  have hascii : Text.isAscii s.chars = true := by
    rw [Text.isAscii, List.all_eq_true]
    intro c hc
    have hvisible := Text.isVisible_of_isPlainChar (s.isPlain_chars.2 c hc)
    simp only [Text.isVisible, Bool.and_eq_true, decide_eq_true_eq] at hvisible
    rw [decide_eq_true_eq]
    omega
  rw [hascii, Bool.not_true, Bool.or_false, decide_eq_false_iff_not]
  omega

/-- A weekday that was written is read back if its ordinal is admitted. -/
theorem read_chars_eq_ok_iff {frequency : Frequency} {s s' : WeekdaySelector} :
    read frequency s.chars = .ok s' ↔ s.IsAdmitted frequency ∧ s' = s := by
  have hguard := s.guard_chars
  obtain ⟨weekday, ordinal⟩ := s
  -- The weekday stands in the last two characters, whatever the length of the ordinal.
  have hback : (chars ⟨weekday, ordinal⟩).drop ((chars ⟨weekday, ordinal⟩).length - 2) =
      weekday.token.toList := by
    rw [chars, List.length_append, length_token, Nat.add_sub_cancel, List.drop_left]
  have hfront : (chars ⟨weekday, ordinal⟩).take ((chars ⟨weekday, ordinal⟩).length - 2) =
      (ordinal.map signedDecimal).getD [] := by
    rw [chars, List.length_append, length_token, Nat.add_sub_cancel, List.take_left]
  rw [read]
  dsimp only
  rw [if_neg (by rw [hguard]; decide), hback, hfront, Key.readWeekday_token]
  cases ordinal with
  | none =>
      show Except.ok _ = Except.ok s' ↔ _
      rw [Except.ok.injEq]
      simp [IsAdmitted, @eq_comm _ s']
  | some n =>
      have hadmitted : IsAdmitted frequency ⟨weekday, some n⟩ ↔
          ValueRange.ordinal.contains n = true ∧ frequency.allowsOrdinals = true := by
        simp [IsAdmitted]
      have hne : (signedDecimal n).isEmpty = false := by
        simpa using Text.signedDecimal_ne_nil n
      rw [hadmitted, Option.map_some, Option.getD_some]
      show (if (signedDecimal n).isEmpty then _ else _) = Except.ok s' ↔ _
      rw [hne, if_neg (by decide)]
      by_cases hcontains : ValueRange.ordinal.contains n = true
      · rw [ValueRange.signed?_of_contains (by decide) hcontains]
        cases frequency.allowsOrdinals <;> simp [hcontains, pure_eq_ok_iff, @eq_comm _ s']
      · split
        next => simp [hcontains]
        next m hm =>
          rw [Text.eq_of_signed?_signedDecimal hm]
          simp [hcontains]

theorem readList_eq_ok_iff {frequency : Frequency} {cs : List Char}
    {ss ss' : List WeekdaySelector} (hcs : items cs = ss.map chars) :
    readList frequency cs = .ok ss' ↔ (∀ s ∈ ss, s.IsAdmitted frequency) ∧ ss' = ss := by
  rw [readList, hcs]
  apply mapM_map_eq_ok_iff
  intro s _ s'
  rw [s.isPlain_chars.trim_eq, read_chars_eq_ok_iff]

end WeekdaySelector

namespace Draft

/-! ## Entering one property -/

/-- The interval and the count have 32 binary digits, and the deadline has whole seconds. -/
structure Fits (d : Draft) : Prop where
  interval_lt : d.interval < Nat.pow 2 32
  count_lt : ∀ n ∈ d.count, n < Nat.pow 2 32
  deadline_whole : ∀ t ∈ d.deadline, t.time.nanosecond = 0

/-- What a reader asks of the value that a draft has for a key. -/
def Admits (d : Draft) : Key → Prop
  | .frequency | .count | .weekStart | .months => True
  | .interval => 0 < d.interval
  | .deadline => ∀ t ∈ d.deadline, 0 ≤ t.date.year
  | .yearDays =>
      d.frequency = .yearly ∧ ∀ n ∈ d.yearDays, ValueRange.yearDay.contains n = true
  | .monthDays =>
      d.frequency ≠ .weekly ∧ ∀ n ∈ d.monthDays, ValueRange.monthDay.contains n = true
  | .weekdays => ∀ s ∈ d.weekdays, s.IsAdmitted d.frequency
  | .hours => ∀ n ∈ d.hours.map Int.ofNat, ValueRange.hour.contains n = true
  | .minutes => ∀ n ∈ d.minutes.map Int.ofNat, ValueRange.minute.contains n = true
  | .seconds => ∀ n ∈ d.seconds.map Int.ofNat, ValueRange.second.contains n = true
  | .setPositions => ∀ n ∈ d.setPositions, ValueRange.setPosition.contains n = true

/-- A draft with what `d` has for a key. -/
def copy (d acc : Draft) : Key → Draft
  | .frequency => { acc with frequency := d.frequency }
  | .interval => { acc with interval := d.interval }
  | .deadline => { acc with deadline := d.deadline }
  | .count => { acc with count := d.count }
  | .weekStart => { acc with weekStart := d.weekStart }
  | .months => { acc with months := d.months }
  | .yearDays => { acc with yearDays := d.yearDays }
  | .monthDays => { acc with monthDays := d.monthDays }
  | .weekdays => { acc with weekdays := d.weekdays }
  | .hours => { acc with hours := d.hours }
  | .minutes => { acc with minutes := d.minutes }
  | .seconds => { acc with seconds := d.seconds }
  | .setPositions => { acc with setPositions := d.setPositions }

variable {d acc acc' : Draft} {key : Key}

private theorem valueChars_of_valueItems {item : List Char} (h : d.valueItems key = [item]) :
    d.valueChars key = item := by
  rw [valueChars, h, List.intercalate_singleton]

private theorem unsigned?_of_lt {n : Nat} (h : n < Nat.pow 2 32) :
    unsigned? 32 (decimal n) = some n := by
  rw [Text.unsigned?_decimal, Option.filter_some, if_pos (decide_eq_true h)]

private theorem enter_interval (hfits : d.Fits) (hkey : Key.interval ∈ d.keys) :
    acc.enter .interval (d.valueChars .interval) = .ok acc' ↔
      d.Admits .interval ∧ acc' = d.copy acc .interval := by
  have hitems : d.valueItems .interval = [decimal d.interval] :=
    Lists.ite_eq_of_ne_nil (mem_keys_iff.mp hkey)
  rw [valueChars_of_valueItems hitems, enter]
  rw [unsigned?_of_lt hfits.interval_lt]
  cases hinterval : d.interval with
  | zero => simp [Admits, hinterval]
  | succ n => simp [Admits, copy, hinterval, eq_comm]

private theorem enter_count (hfits : d.Fits) (hkey : Key.count ∈ d.keys) :
    acc.enter .count (d.valueChars .count) = .ok acc' ↔
      d.Admits .count ∧ acc' = d.copy acc .count := by
  have hne := mem_keys_iff.mp hkey
  cases hcount : d.count with
  | none => simp [valueItems, hcount] at hne
  | some n =>
      have hitems : d.valueItems .count = [decimal n] := by
        simp [valueItems, hcount]
      rw [valueChars_of_valueItems hitems, enter]
      rw [unsigned?_of_lt (hfits.count_lt n hcount)]
      simp [Admits, copy, hcount, @eq_comm _ acc']

private theorem enter_deadline (hfits : d.Fits) (hkey : Key.deadline ∈ d.keys) :
    acc.enter .deadline (d.valueChars .deadline) = .ok acc' ↔
      d.Admits .deadline ∧ acc' = d.copy acc .deadline := by
  have hne := mem_keys_iff.mp hkey
  cases hdeadline : d.deadline with
  | none => simp [valueItems, hdeadline] at hne
  | some t =>
      have hitems : d.valueItems .deadline = [t.stampChars] := by
        simp [valueItems, hdeadline]
      have hwhole := hfits.deadline_whole t hdeadline
      have hadmits : d.Admits .deadline ↔ 0 ≤ t.date.year := by
        simp [Admits, hdeadline]
      rw [valueChars_of_valueItems hitems, enter, hadmits]
      by_cases hyear : 0 ≤ t.date.year
      · have htruncate : t.truncate = t := by
          obtain ⟨date, second, nanosecond, _, _⟩ := t
          obtain rfl : nanosecond = 0 := hwhole
          rfl
        rw [DateTime.ofStamp?_stampChars hwhole hyear]
        simp [withDeadline, htruncate, copy, hdeadline, hyear, @eq_comm _ acc']
      · rw [DateTime.ofStamp?_stampChars_of_year_neg (by omega)]
        simp [hyear]

private theorem enter_weekStart (hkey : Key.weekStart ∈ d.keys) :
    acc.enter .weekStart (d.valueChars .weekStart) = .ok acc' ↔
      d.Admits .weekStart ∧ acc' = d.copy acc .weekStart := by
  have hitems : d.valueItems .weekStart = [d.weekStart.token.toList] :=
    Lists.ite_eq_of_ne_nil (mem_keys_iff.mp hkey)
  rw [valueChars_of_valueItems hitems, enter]
  rw [Key.readWeekday_token]
  simp [Admits, copy, Except.map, @eq_comm _ acc']

private theorem enter_months (hkey : Key.months ∈ d.keys) :
    acc.enter .months (d.valueChars .months) = .ok acc' ↔
      d.Admits .months ∧ acc' = d.copy acc .months := by
  have hitems : items (d.valueChars .months) =
      (d.months.map fun m => (m.number : Int)).map signedDecimal := by
    rw [items_valueChars hkey]
    simp [valueItems, Function.comp_def]
  have hcontains : ∀ n ∈ d.months.map fun m => (m.number : Int),
      ValueRange.month.contains n = true := by
    simp only [List.mem_map]
    rintro _ ⟨m, -, rfl⟩
    cases m <;> rfl
  have hmonths : (d.months.map fun m => (m.number : Int)).filterMap
      (fun n => Month.ofNumber? n.toNat) = d.months := by
    simp [List.filterMap_map]
  rw [enter, ValueRange.map_readList_eq_ok_iff (by decide) hitems, hmonths, Admits, copy]
  exact and_congr_left fun _ => iff_true_intro hcontains

/-- Entering a property of a draft's text is copying its value, if the draft admits it. -/
theorem enter_eq_ok_iff (hfits : d.Fits) (hfrequency : acc.frequency = d.frequency)
    (hkey : key ∈ d.keys) :
    acc.enter key (d.valueChars key) = .ok acc' ↔ d.Admits key ∧ acc' = d.copy acc key := by
  have hitems := items_valueChars hkey
  -- Hours, minutes and seconds are read as integers and kept as naturals.
  have hnumbers (ns : List Nat) : ns.map decimal = (ns.map Int.ofNat).map signedDecimal := by
    simp [Function.comp_def]
  have hback (ns : List Nat) : (ns.map Int.ofNat).map Int.toNat = ns := by
    simp [Function.comp_def]
  cases key with
  | frequency =>
      rw [enter, Admits, copy, ← hfrequency]
      simp [@eq_comm _ acc']
  | interval => exact enter_interval hfits hkey
  | count => exact enter_count hfits hkey
  | deadline => exact enter_deadline hfits hkey
  | weekStart => exact enter_weekStart hkey
  | months => exact enter_months hkey
  | yearDays =>
      rw [enter, Admits, copy, ← hfrequency]
      split
      next h => rw [ValueRange.map_readList_eq_ok_iff (by decide) hitems, and_assoc,
        and_iff_right h]
      next h => simp [h]
  | monthDays =>
      rw [enter, Admits, copy, ← hfrequency]
      split
      next h => rw [ValueRange.map_readList_eq_ok_iff (by decide) hitems, and_assoc,
        and_iff_right h]
      next h => simp [h]
  | weekdays =>
      simp only [enter, Admits, copy, ← hfrequency, map_eq_ok_iff,
        WeekdaySelector.readList_eq_ok_iff hitems]
      constructor
      · rintro ⟨_, ⟨hall, rfl⟩, rfl⟩
        exact ⟨hall, rfl⟩
      · rintro ⟨hall, rfl⟩
        exact ⟨d.weekdays, ⟨hall, rfl⟩, rfl⟩
  | hours =>
      rw [enter, ValueRange.map_readList_eq_ok_iff (by decide) (hitems.trans (hnumbers _)),
        hback, Admits, copy]
  | minutes =>
      rw [enter, ValueRange.map_readList_eq_ok_iff (by decide) (hitems.trans (hnumbers _)),
        hback, Admits, copy]
  | seconds =>
      rw [enter, ValueRange.map_readList_eq_ok_iff (by decide) (hitems.trans (hnumbers _)),
        hback, Admits, copy]
  | setPositions =>
      rw [enter, ValueRange.map_readList_eq_ok_iff (by decide) hitems, Admits, copy]

/-! ## Entering all properties -/

theorem enterProperty_eq_ok_iff (hfits : d.Fits) (hfrequency : acc.frequency = d.frequency)
    (hkey : key ∈ d.keys) {p : Property} (hshows : d.Shows key p) :
    acc.enterProperty p = .ok acc' ↔ d.Admits key ∧ acc' = d.copy acc key := by
  rw [enterProperty, hshows.1, hshows.2, Key.ofName?_name]
  exact mapError_eq_ok_iff.trans (enter_eq_ok_iff hfits hfrequency hkey)

theorem frequency_copy (hfrequency : acc.frequency = d.frequency) (key : Key) :
    (d.copy acc key).frequency = d.frequency := by
  cases key <;> first | rfl | exact hfrequency

/-- Properties are entered one by one if the draft admits all their keys. -/
theorem foldlM_enterProperty_eq_ok_iff (hfits : d.Fits) {keys : List Key}
    {ps : List Property} (hshows : List.Forall₂ d.Shows keys ps)
    (hkeys : ∀ key ∈ keys, key ∈ d.keys) (hfrequency : acc.frequency = d.frequency) :
    ps.foldlM enterProperty acc = .ok acc' ↔
      (∀ key ∈ keys, d.Admits key) ∧ acc' = keys.foldl d.copy acc := by
  induction hshows generalizing acc with
  | nil =>
      rw [List.foldlM_nil, pure_eq_ok_iff]
      simp [eq_comm]
  | cons hp _ ih =>
      have hkey := hkeys _ List.mem_cons_self
      have hrest {acc : Draft} (hacc : acc.frequency = d.frequency) :=
        ih (fun k hk => hkeys k (List.mem_cons_of_mem _ hk)) hacc
      simp only [List.foldlM_cons, bind_eq_ok_iff,
        enterProperty_eq_ok_iff hfits hfrequency hkey hp, List.forall_mem_cons, List.foldl_cons]
      constructor
      · rintro ⟨_, ⟨hadmits, rfl⟩, h⟩
        obtain ⟨hall, rfl⟩ := (hrest (frequency_copy hfrequency _)).mp h
        exact ⟨⟨hadmits, hall⟩, rfl⟩
      · rintro ⟨⟨hadmits, hall⟩, rfl⟩
        exact ⟨_, ⟨hadmits, rfl⟩, (hrest (frequency_copy hfrequency _)).mpr ⟨hall, rfl⟩⟩

theorem copy_comm (d acc : Draft) (key key' : Key) :
    d.copy (d.copy acc key) key' = d.copy (d.copy acc key') key := by
  cases key <;> cases key' <;> rfl

/-- What the text leaves out is what a reader assumes. -/
theorem copy_of_not_mem_keys (h : key ∉ d.keys) :
    d.copy (ofFrequency d.frequency) key = ofFrequency d.frequency := by
  rw [mem_keys_iff, not_not] at h
  cases key <;> simp only [valueItems, List.map_eq_nil_iff, Option.toList_eq_nil_iff,
    ite_eq_left_iff, List.cons_ne_nil, imp_false, not_not] at h
  all_goals simp [copy, h, ofFrequency]

/-- Copies that change nothing may be left out. -/
theorem foldl_copy_filter {keys : List Key} {shown : Key → Bool}
    (h : ∀ key ∈ keys, shown key = false → d.copy acc key = acc) :
    (keys.filter shown).foldl d.copy acc = keys.foldl d.copy acc := by
  induction keys generalizing acc with
  | nil => rfl
  | cons key rest ih =>
      have hrest := fun k hk => h k (List.mem_cons_of_mem key hk)
      by_cases hshown : shown key = true
      · rw [List.filter_cons_of_pos hshown, List.foldl_cons, List.foldl_cons]
        apply ih
        intro k hk hhidden
        rw [copy_comm, hrest k hk hhidden]
      · have hfix := h key List.mem_cons_self (eq_false_of_ne_true hshown)
        rw [List.filter_cons_of_neg hshown, List.foldl_cons, hfix, ih hrest]

/-- Nothing is left of a draft when all values are copied over it. -/
theorem foldl_copy_all (d acc : Draft) : Key.all.foldl d.copy acc = d := by
  simp only [Key.all, List.foldl_cons, List.foldl_nil, copy]

/-- Copying what the text shows gives the draft. -/
theorem foldl_copy_keys (d : Draft) :
    d.keys.foldl d.copy (ofFrequency d.frequency) = d := by
  rw [keys, foldl_copy_filter, foldl_copy_all]
  intro key _ hhidden
  apply copy_of_not_mem_keys
  rw [keys, List.mem_filter, hhidden]
  simp

end Draft

end Timetable
